import MaltClient.BucketSync

/-! Names of branches: a selector, the ref it addresses and the key of its
workspace determine each other. -/

namespace MaltClient.BucketBranch

open GoText Checked

section refs

variable {raw b name : GoString}

theorem refName_eq_ok {ref : GoString} :
    refName raw = .ok ref ↔ ∃ selector, normalizeSelector raw = .ok selector ∧
    (if selector = mainBranch then selector else headsPrefix ++ trimPrefix selector headsPrefix) =
      ref := by
  simp only [refName, ok_iff]

def refOf (selector : GoString) : GoString :=
  if selector = mainBranch then selector else headsPrefix ++ trimPrefix selector headsPrefix

theorem refName_of_normal (h : normalizeSelector raw = .ok b) : refName raw = .ok (refOf b) :=
  refName_eq_ok.mpr ⟨b, h, rfl⟩

theorem refOf_selectorOf (h : BranchName name) : refOf (selectorOf name) = headsPrefix ++ name := by
  rw [refOf, if_neg h.selectorOf_ne.2, trimPrefix_selectorOf]

theorem heads_append_ne_main (name : GoString) : headsPrefix ++ name ≠ mainBranch := by
  intro he
  exact absurd (List.cons.inj he).1 (by decide)

theorem refOf_injective {raw' b' : GoString} (h : normalizeSelector raw = .ok b)
    (h' : normalizeSelector raw' = .ok b') (he : refOf b = refOf b') : b = b' := by
  have hmain : refOf mainBranch = mainBranch := rfl
  rcases normalizeSelector_cases h with rfl | ⟨name, hname, rfl⟩
  · rcases normalizeSelector_cases h' with rfl | ⟨name', hname', rfl⟩
    · rfl
    · rw [hmain, refOf_selectorOf hname'] at he
      exact absurd he.symm (heads_append_ne_main name')
  · rcases normalizeSelector_cases h' with rfl | ⟨name', hname', rfl⟩
    · rw [hmain, refOf_selectorOf hname] at he
      exact absurd he (heads_append_ne_main name)
    · rw [refOf_selectorOf hname, refOf_selectorOf hname'] at he
      rw [List.append_cancel_left he]

theorem normalizeSelector_eq_main :
    normalizeSelector raw = .ok mainBranch ↔ trimSpace raw = [] ∨ trimSpace raw = mainBranch := by
  constructor
  · intro h
    by_contra hdefault
    rw [normalizeSelector, if_neg hdefault] at h
    obtain ⟨hname, hmain⟩ := normalizeExplicit_eq_ok.mp h
    exact hname.selectorOf_ne.2 hmain
  · intro h
    rw [normalizeSelector, if_pos h]
    rfl

theorem not_conflict_of_heads : hasPrefix (headsPrefix ++ name) (text "conflicts/") = false := by
  rfl

theorem hasPrefix_append (p s t : GoString) : hasPrefix (p ++ s) (p ++ t) = hasPrefix s t := by
  induction p with
  | nil => rfl
  | cons r p ih => simpa [hasPrefix] using ih

theorem refOf_shape (h : normalizeSelector raw = .ok b) :
    hasPrefix (refOf b) (text "conflicts/") = false ∧ hasPrefix (refOf b)
      (headsPrefix ++ text "conflicts/") = false ∧
      refOf b ≠ headsPrefix ++ mainBranch ∧ (refOf b = mainBranch ↔ trimSpace raw = [] ∨
        trimSpace raw = mainBranch) := by
  rw [← normalizeSelector_eq_main]
  rcases normalizeSelector_cases h with rfl | ⟨name, hname, rfl⟩
  · exact ⟨rfl, rfl, by decide, fun _ => h, fun _ => rfl⟩
  · rw [refOf_selectorOf hname]
    refine ⟨not_conflict_of_heads, ?_, ?_, fun he => ?_, fun he => ?_⟩
    · rw [hasPrefix_append]
      exact hname.notConflict
    · exact fun he => hname.notMain (List.append_cancel_left he)
    · exact absurd he (heads_append_ne_main name)
    · rw [h] at he
      exact absurd (Except.ok.inj he) hname.selectorOf_ne.2

end refs

end MaltClient.BucketBranch

namespace MaltClient.BucketSync

open GoText Checked
open BucketBranch

section base64

theorem base64Digit_injective :
    ∀ m < 64, ∀ n < 64, base64Digit m = base64Digit n → m = n := by decide +kernel

theorem base64Digit_ne_at : ∀ n < 64, base64Digit n ≠ .char '@' := by decide +kernel

variable {s : List Nat}

theorem encodeToString_ne_at (hs : ∀ b ∈ s, b < 256) : Rune.char '@' ∉ encodeToString s := by
  have hdigit {n : Nat} (hn : n < 64) : Rune.char '@' ≠ base64Digit n :=
    (base64Digit_ne_at n hn).symm
  induction s using encodeToString.induct with
  | case1 a b c rest ih =>
    simp only [List.forall_mem_cons] at hs
    simp only [encodeToString, List.mem_cons, not_or]
    exact ⟨hdigit (by omega), hdigit (by omega), hdigit (by omega), hdigit (by omega), ih hs.2.2.2⟩
  | case2 a b =>
    simp only [List.forall_mem_cons] at hs
    simp only [encodeToString, List.mem_cons, not_or]
    exact ⟨hdigit (by omega), hdigit (by omega), hdigit (by omega), List.not_mem_nil⟩
  | case3 a =>
    simp only [List.forall_mem_cons] at hs
    simp only [encodeToString, List.mem_cons, not_or]
    exact ⟨hdigit (by omega), hdigit (by omega), List.not_mem_nil⟩
  | case4 => exact List.not_mem_nil

theorem encodeToString_injective {t : List Nat} (hs : ∀ b ∈ s, b < 256) (ht : ∀ b ∈ t, b < 256)
    (h : encodeToString s = encodeToString t) : s = t := by
  have hdigit {m n : Nat} (hm : m < 64) (hn : n < 64) (he : base64Digit m = base64Digit n) :
    m = n :=
    base64Digit_injective m hm n hn he
  induction s using encodeToString.induct generalizing t with
  | case1 a b c rest ih =>
    rcases t with _ | ⟨x, _ | ⟨y, _ | ⟨z, t⟩⟩⟩ <;>
      simp only [encodeToString, List.cons.injEq, reduceCtorEq, and_false] at h
    simp only [List.forall_mem_cons] at hs ht
    obtain ⟨h1, h2, h3, h4, hrest⟩ := h
    have d1 := hdigit (by omega) (by omega) h1
    have d2 := hdigit (by omega) (by omega) h2
    have d3 := hdigit (by omega) (by omega) h3
    have d4 := hdigit (by omega) (by omega) h4
    have htriple : a = x ∧ b = y ∧ c = z := by omega
    rw [htriple.1, htriple.2.1, htriple.2.2, ih hs.2.2.2 ht.2.2.2 hrest]
  | case2 a b =>
    rcases t with _ | ⟨x, _ | ⟨y, _ | ⟨z, t⟩⟩⟩ <;>
      simp only [encodeToString, List.cons.injEq, reduceCtorEq, and_false, and_true] at h
    simp only [List.forall_mem_cons] at hs ht
    obtain ⟨h1, h2, h3⟩ := h
    have d1 := hdigit (by omega) (by omega) h1
    have d2 := hdigit (by omega) (by omega) h2
    have d3 := hdigit (by omega) (by omega) h3
    have hpair : a = x ∧ b = y := by omega
    rw [hpair.1, hpair.2]
  | case3 a =>
    rcases t with _ | ⟨x, _ | ⟨y, _ | ⟨z, t⟩⟩⟩ <;>
      simp only [encodeToString, List.cons.injEq, reduceCtorEq, and_false, and_true] at h
    simp only [List.forall_mem_cons] at hs ht
    have d1 := hdigit (by omega) (by omega) h.1
    have d2 := hdigit (by omega) (by omega) h.2
    have hone : a = x := by omega
    rw [hone]
  | case4 =>
    rcases t with _ | ⟨x, _ | ⟨y, _ | ⟨z, t⟩⟩⟩ <;> simp only [encodeToString, reduceCtorEq] at h
    rfl

theorem bytes_lt (s : GoString) : ∀ b ∈ bytes s, b < 256 := by
  intro b hb
  obtain ⟨r, -, hr⟩ := List.mem_flatMap.mp hb
  cases r with
  | char c =>
    obtain ⟨u, -, rfl⟩ := List.mem_map.mp hr
    exact u.toNat_lt
  | bad u =>
    rw [List.mem_singleton.mp hr]
    exact u.toNat_lt

end base64

theorem validString_of_normal {raw b : GoString} (h : normalizeSelector raw = .ok b) :
    validString b = true := by
  have hname {name : GoString} (hn : BranchName name) : validString name = true := by
    refine List.all_eq_true.mpr fun r hr => ?_
    rw [← join_split name] at hr
    rcases mem_join hr with rfl | ⟨segment, hs, hrs⟩
    · rfl
    · have hvalid := hn.segments segment hs
      simp only [validIdentifier, Bool.and_eq_true, List.all_eq_true] at hvalid
      have hrune := hvalid.2 r hrs
      cases r with
      | char c => rfl
      | bad u => cases hrune
  rcases normalizeSelector_cases h with rfl | ⟨name, hn, rfl⟩
  · rfl
  · unfold selectorOf
    split_ifs
    · rw [validString, List.all_append, Bool.and_eq_true]
      exact ⟨by decide, hname hn⟩
    · exact hname hn

theorem workspaceKey_injective {bucketID bucketID' branch branch' : GoString}
    (hbranch : normalizeSelector branch = .ok branch)
    (hbranch' : normalizeSelector branch' = .ok branch')
    (h : workspaceKey bucketID branch = workspaceKey bucketID' branch') :
    bucketID = bucketID' ∧ branch = branch' := by
  have hnotin := encodeToString_ne_at (bytes_lt branch)
  have hnotin' := encodeToString_ne_at (bytes_lt branch')
  have hsplit :
    bucketID = bucketID' ∧ encodeToString (bytes branch) = encodeToString (bytes branch') := by
    unfold workspaceKey at h
    rcases List.append_eq_append_iff.mp h with ⟨mid, hid, hrest⟩ | ⟨mid, hid, hrest⟩
    · cases mid with
      | nil => exact ⟨by simpa using hid.symm, (List.cons.inj hrest).2⟩
      | cons r mid =>
        rw [List.cons_append, List.cons.injEq] at hrest
        exact absurd (by rw [hrest.2]; simp) hnotin
    · cases mid with
      | nil => exact ⟨by simpa using hid, (List.cons.inj hrest).2.symm⟩
      | cons r mid =>
        rw [List.cons_append, List.cons.injEq] at hrest
        exact absurd (by rw [hrest.2]; simp) hnotin'
  have hbytes := encodeToString_injective (bytes_lt branch) (bytes_lt branch') hsplit.2
  exact ⟨hsplit.1, bytes_injective (validString_of_normal hbranch) (validString_of_normal hbranch')
    hbytes⟩

/-- Selectors, refs and workspace keys name branches consistently. -/
theorem branch_names_consistent :
    (∀ raw b, normalizeSelector raw = .ok b → normalizeSelector b = .ok b ∧
      refName raw = refName b) ∧
    (∀ raw raw' b b', normalizeSelector raw = .ok b → normalizeSelector raw' = .ok b' →
      (refName raw = refName raw' ↔ b = b')) ∧
    (∀ raw ref, refName raw = .ok ref →
      hasPrefix ref (text "conflicts/") = false ∧ hasPrefix ref (headsPrefix ++ text "conflicts/") =
        false ∧ ref ≠ headsPrefix ++ mainBranch ∧ (ref = mainBranch ↔ trimSpace raw = [] ∨
          trimSpace raw = mainBranch)) ∧
    ∀ bucketID bucketID' branch branch', normalizeSelector branch = .ok branch →
      normalizeSelector branch' = .ok branch' →
      workspaceKey bucketID branch = workspaceKey bucketID' branch' → bucketID = bucketID' ∧
        branch = branch' := by
  refine ⟨fun raw b h => ?_, fun raw raw' b b' h h' => ?_, fun raw ref href => ?_, fun _ _ _ _ =>
    workspaceKey_injective⟩
  · have hidem := normalizeSelector_idem h
    exact ⟨hidem, (refName_of_normal h).trans (refName_of_normal hidem).symm⟩
  · rw [refName_of_normal h, refName_of_normal h', Except.ok.injEq]
    constructor
    · exact refOf_injective h h'
    · rintro rfl
      rfl
  · obtain ⟨selector, hselector, rfl⟩ := refName_eq_ok.mp href
    exact refOf_shape hselector

end MaltClient.BucketSync
