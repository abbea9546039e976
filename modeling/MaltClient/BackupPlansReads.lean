import MaltClient.BackupPlans

/-! When the store of backup plans reads back what it wrote, and that it keeps
one plan for a branch and the sources of all bindings apart. -/

namespace MaltClient.BackupPlans

open GoText Checked LockedFile AssocMap
open BucketBranch (normalizeSelector mainBranch BranchName normalizeSelector_cases
  normalizeExplicit_eq_ok validRune validIdentifier)
open BucketSync (encodeToString base64Alphabet base64Digit)

section paths

variable {host : Host}

theorem common_le (s t : List GoString) : common s t ≤ s.length := by
  induction s generalizing t with
  | nil => simp [common]
  | cons a s ih =>
    cases t with
    | nil => simp [common]
    | cons b t =>
      have hle := ih t
      unfold common
      split_ifs
      · simp only [List.length_cons]
        omega
      · simp

theorem common_eq_length {s t : List GoString} : common s t = s.length ↔ s <+: t := by
  induction s generalizing t with
  | nil => simp [common]
  | cons a s ih =>
    cases t with
    | nil => simp [common]
    | cons b t =>
      unfold common
      split_ifs with h
      · subst h
        rw [List.length_cons, Nat.add_right_cancel_iff, ih, List.prefix_cons_inj]
      · simp [List.cons_prefix_cons, h]

variable {root target a b : GoString}

theorem rel_within_iff (hnames : ∀ n ∈ names target, Name n) :
    (rel root target = dot ∨
      (rel root target ≠ dotDot ∧ hasPrefix (rel root target) (dotDot ++ [slash]) = false)) ↔
      names root <+: names target := by
  have hle := common_le (names root) (names target)
  by_cases hin : names root <+: names target
  · refine iff_of_true ?_ hin
    have hshared : common (names root) (names target) = (names root).length :=
      common_eq_length.mpr hin
    have hrel : rel root target = if (names target).drop (names root).length = [] then dot
        else join ((names target).drop (names root).length) := by
      simp only [rel, hshared, Nat.sub_self, List.replicate_zero, List.nil_append]
    rw [hrel]
    by_cases hnil : (names target).drop (names root).length = []
    · simp [hnil]
    · rw [if_neg hnil]
      obtain ⟨n, rest, hrest⟩ := List.exists_cons_of_ne_nil hnil
      have hplain : ∀ p ∈ n :: rest, Plain p := fun p hp =>
        (hnames p (List.mem_of_mem_drop (hrest ▸ hp))).plain
      have hn : n ≠ dotDot := (hnames n (List.mem_of_mem_drop (hrest ▸ List.mem_cons_self))).2.2
      have hup : ∀ p ∈ [dotDot], Plain p := by
        intro p hp
        rw [List.mem_singleton.mp hp]
        exact plain_dotDot
      rw [hrest]
      refine .inr ⟨fun he => ?_, ?_⟩
      · have hsame : n :: rest = [dotDot] := join_injective hplain hup he
        exact hn (List.cons.inj hsame).1
      · rw [Bool.eq_false_iff]
        intro hpre
        obtain ⟨r, -, hsame⟩ := (join_slash_prefix_iff hplain hup (by simp)).mp
          (hasPrefix_iff.mp hpre)
        exact hn (List.cons.inj hsame).1
  · refine iff_of_false ?_ hin
    have hshared : common (names root) (names target) < (names root).length :=
      lt_of_le_of_ne hle fun he => hin (common_eq_length.mp he)
    -- at least one step up
    obtain ⟨k, hk⟩ := Nat.exists_eq_add_of_lt hshared
    obtain ⟨more, hmore⟩ :
      ∃ more, rel root target = join (dotDot :: more) ∧ ∀ p ∈ dotDot :: more, Plain p := by
      refine ⟨List.replicate k dotDot ++ (names target).drop (common (names root) (names target)),
        ?_, ?_⟩
      · have hups : (names root).length - common (names root) (names target) = k + 1 := by omega
        simp [rel, hups, List.replicate_succ]
      · intro p hp
        rw [← List.cons_append, ← List.replicate_succ, List.mem_append] at hp
        rcases hp with hp | hp
        · rw [List.eq_of_mem_replicate hp]
          exact plain_dotDot
        · exact (hnames p (List.mem_of_mem_drop hp)).plain
    obtain ⟨hrel, hplain⟩ := hmore
    have hup : ∀ p ∈ [dotDot], Plain p := fun p hp => hplain p (by simp [List.mem_singleton.mp hp])
    rw [hrel]
    rintro (hdot | ⟨hne, hpre⟩)
    · have hsame : dotDot :: more = [dot] := join_injective hplain (by decide) hdot
      exact absurd (List.cons.inj hsame).1 (by decide)
    · cases more with
      | nil => exact hne rfl
      | cons p ps =>
        rw [Bool.eq_false_iff] at hpre
        exact hpre (hasPrefix_iff.mpr ((join_slash_prefix_iff hplain hup (by simp)).mpr ⟨p :: ps,
          by simp, rfl⟩))

theorem names_slash_join {ps : List GoString} (h : ∀ p ∈ ps, Name p) :
    names (slash :: join ps) = ps := by
  have hsplit : split (slash :: join ps) = [] :: split (join ps) := split_append_slash [] (join ps)
  rw [names, hsplit]
  by_cases hnil : ps = []
  · subst hnil
    rfl
  · rw [split_join hnil fun p hp => (h p hp).plain.2, List.filter_cons_of_neg (by simp),
      List.filter_eq_self]
    intro p hp
    simpa using (h p hp).plain.1

theorem exists_of_abs {path result : GoString} (h : host.abs path = .ok result) :
    ∃ ps, (∀ p ∈ ps, Name p) ∧ result = slash :: join ps := by
  unfold Host.abs at h
  split_ifs at h with habs
  · cases h
    exact exists_names_of_clean_rooted (isAbs_iff.mp habs)
  · simp only [ok_iff] at h
    obtain ⟨cwd, hcwd, rfl⟩ := h
    have hhead := isAbs_iff.mp (host.cwd_abs cwd hcwd)
    have hne : cwd ≠ [] := by
      rintro rfl
      simp at hhead
    have hjoin : pathJoin [cwd, path] = clean (join (cwd :: [path].filter fun e => e ≠ [])) := by
      simp [pathJoin, hne]
    rw [hjoin]
    exact exists_names_of_clean_rooted ((head?_join hne).trans hhead)

theorem pathWithin_eq_ok {inside : Bool} (h : pathWithin host root target = .ok inside) :
    ∃ r t, host.abs root = .ok r ∧ host.abs target = .ok t ∧
      (inside = true ↔ names r <+: names t) := by
  simp only [pathWithin, ok_iff] at h
  obtain ⟨-, -, r, hr, t, ht, rfl⟩ := h
  refine ⟨r, t, hr, ht, ?_⟩
  obtain ⟨ps, hps, rfl⟩ := exists_of_abs ht
  rw [← rel_within_iff (by rw [names_slash_join hps]; exact hps)]
  simp

/-- The path of one directory extends that of another, as the system resolves
them. -/
def Inside (host : Host) (inner outer : GoString) : Prop :=
  ∃ r t r' t', resolveExistingAncestors host outer = .ok r ∧
    resolveExistingAncestors host inner = .ok t ∧
    host.abs r = .ok r' ∧ host.abs t = .ok t' ∧ names r' <+: names t'

def Apart (host : Host) (a b : GoString) : Prop :=
  resolvedPathWithin host b a = .ok false ∧ resolvedPathWithin host a b = .ok false

theorem Apart.symm (h : Apart host a b) : Apart host b a := ⟨h.2, h.1⟩

theorem not_inside_of_resolved {inner outer : GoString}
    (h : resolvedPathWithin host outer inner = .ok false) : ¬ Inside host inner outer := by
  rintro ⟨r, t, r', t', hr, ht, hr', ht', hin⟩
  simp only [resolvedPathWithin, hr, ht, bind_eq_ok, Except.ok.injEq, exists_eq_left'] at h
  obtain ⟨a, b, ha, hb, hiff⟩ := pathWithin_eq_ok h
  obtain rfl := Except.ok.inj (ha.symm.trans hr')
  obtain rfl := Except.ok.inj (hb.symm.trans ht')
  exact absurd (hiff.mpr hin) (by simp)

theorem Apart.not_inside (h : Apart host a b) : ¬ Inside host a b ∧ ¬ Inside host b a :=
  ⟨not_inside_of_resolved h.1, not_inside_of_resolved h.2⟩

theorem overlap_eq_false : bindingSourcesOverlap host a b = .ok false ↔ a ≠ b ∧ Apart host a b := by
  unfold bindingSourcesOverlap
  split_ifs with h
  · simp [h, pure_eq_ok]
  · simp only [ok_iff, Bool.or_eq_false_iff, ne_eq, h, not_false_eq_true, true_and, Apart]
    constructor
    · rintro ⟨x, hx, y, hy, rfl, rfl⟩
      exact ⟨hx, hy⟩
    · rintro ⟨hx, hy⟩
      exact ⟨_, hx, _, hy, rfl, rfl⟩

end paths

section validation

variable {host : Host}

theorem validateApart_eq_ok {left right : Binding} :
    validateApart host left right = .ok () ↔ Apart host left.source right.source := by
  simp only [validateApart, ok_iff, not_or, Bool.not_eq_true, Apart]
  constructor
  · rintro ⟨x, hx, y, hy, rfl, rfl⟩
    exact ⟨hx, hy⟩
  · rintro ⟨hx, hy⟩
    exact ⟨_, hx, _, hy, rfl, rfl⟩

theorem forPairs_eq_ok {α : Type} {check : α → α → Except PlanError Unit} {l : List α} :
    forPairs check l = .ok () ↔ l.Pairwise fun a b => check a b = .ok () := by
  induction l with
  | nil => simp [forPairs, pure_eq_ok]
  | cons a l ih =>
    simp only [forPairs, bind_eq_ok, List.pairwise_cons, ih]
    constructor
    · rintro ⟨u, hu, hl⟩
      exact ⟨forM_eq_ok.mp hu, hl⟩
    · rintro ⟨hu, hl⟩
      exact ⟨⟨⟩, forM_eq_ok.mpr hu, hl⟩

structure CompleteBinding (b : Binding) : Prop where
  name : b.name ≠ []
  source : b.source ≠ []
  pathName : b.pathName ≠ []
  createdAt : b.createdAt ≠ 0
  identity : validateOpaqueID b.id (text "binding") = .ok ()

structure Differ (a b : Binding) : Prop where
  name : a.name ≠ b.name
  source : a.source ≠ b.source
  pathName : a.pathName ≠ b.pathName

theorem Differ.symm {a b : Binding} (h : Differ a b) : Differ b a :=
  ⟨h.name.symm, h.source.symm, h.pathName.symm⟩

theorem ne_nil_of_opaqueID {value kind : GoString} (h : validateOpaqueID value kind = .ok ()) :
    value ≠ [] := by
  simp only [validateOpaqueID, reject_eq_ok, not_or] at h
  exact h.2.2.1

theorem validateBinding_eq_ok (seen : List Binding) (b : Binding) (r : List Binding) :
    validateBinding seen b = .ok r ↔ r = b :: seen ∧ CompleteBinding b ∧
      ∀ s ∈ seen, Differ s b := by
  simp only [validateBinding, ok_iff, not_or, List.mem_map, not_exists, not_and]
  constructor
  · rintro ⟨-, ⟨-, hname, hsource, hpath, htime⟩, _, hid, -, hnames, -, hsources, -, hpaths, rfl⟩
    exact ⟨rfl, ⟨hname, hsource, hpath, htime, hid⟩, fun s hs => ⟨hnames s hs, hsources s hs,
      hpaths s hs⟩⟩
  · rintro ⟨rfl, h, hseen⟩
    exact ⟨⟨⟩, ⟨ne_nil_of_opaqueID h.identity, h.name, h.source, h.pathName, h.createdAt⟩,
      ⟨⟩, h.identity, ⟨⟩, fun s hs => (hseen s hs).name, ⟨⟩, fun s hs => (hseen s hs).source, ⟨⟩,
        fun s hs => (hseen s hs).pathName, rfl⟩

structure ValidPlan (host : Host) (plan : Plan) : Prop where
  bucketID : plan.bucketID ≠ []
  name : plan.name ≠ []
  branch_ne : plan.branch ≠ []
  createdAt : plan.createdAt ≠ 0
  identity : validateOpaqueID plan.id (text "plan") = .ok ()
  branch : ∃ b, normalizeSelector plan.branch = .ok b
  complete : ∀ b ∈ plan.bindings, CompleteBinding b
  differ : plan.bindings.Pairwise Differ
  apart : plan.bindings.Pairwise fun a b => Apart host a.source b.source

theorem validatePlan_eq_ok {plan : Plan} :
    validatePlan host plan = .ok () ↔ ValidPlan host plan := by
  have hseen := foldlM_seen validateBinding_eq_ok plan.bindings []
  simp only [List.not_mem_nil, false_imp_iff, implies_true, and_true] at hseen
  simp only [validatePlan, normalizePlanBranch, ok_iff, not_or, forPairs_eq_ok, validateApart_eq_ok]
  constructor
  · rintro ⟨-, ⟨-, hbucket, hname, hbranch, htime⟩, _, hid, b, hb, r, hr, hapart⟩
    obtain ⟨hcomplete, hdiffer⟩ := hseen.mp ⟨r, hr⟩
    exact ⟨hbucket, hname, hbranch, htime, hid, ⟨b, hb⟩, hcomplete, hdiffer, hapart⟩
  · intro h
    obtain ⟨b, hb⟩ := h.branch
    obtain ⟨r, hr⟩ := hseen.mpr ⟨h.complete, h.differ⟩
    exact ⟨⟨⟩, ⟨ne_nil_of_opaqueID h.identity, h.bucketID, h.name, h.branch_ne, h.createdAt⟩, ⟨⟩,
      h.identity, b, hb, r, hr, h.apart⟩

structure Compatible (host : Host) (p q : Plan) : Prop where
  target : targetOf p ≠ targetOf q
  source : ∀ a ∈ p.bindings, ∀ b ∈ q.bindings, a.source ≠ b.source
  apart : ∀ a ∈ p.bindings, ∀ b ∈ q.bindings, Apart host a.source b.source

theorem Compatible.symm {p q : Plan} (h : Compatible host p q) : Compatible host q p :=
  ⟨h.target.symm, fun a ha b hb => (h.source b hb a ha).symm, fun a ha b hb =>
    (h.apart b hb a ha).symm⟩

instance : Std.Symm (Compatible host) := ⟨fun _ _ => Compatible.symm⟩

def plansOf (value : Plans) : List Plan := value.entries.map Sigma.snd

/-- What `load` asks of the plans. -/
structure Stored (host : Host) (value : Plans) : Prop where
  key : ∀ e ∈ value.entries, e.1 = e.2.id
  valid : ∀ p ∈ plansOf value, ValidPlan host p
  compatible : (plansOf value).Pairwise (Compatible host)

theorem reserveTarget_eq_ok (seen : List Plan) (p : Plan) (r : List Plan) :
    reserveTarget seen p = .ok r ↔ r = p :: seen ∧ True ∧ ∀ s ∈ seen, targetOf s ≠ targetOf p := by
  simp only [reserveTarget, ok_iff, List.mem_map, not_exists, not_and, true_and]
  constructor
  · rintro ⟨-, hseen, rfl⟩
    exact ⟨rfl, hseen⟩
  · rintro ⟨rfl, hseen⟩
    exact ⟨⟨⟩, hseen, rfl⟩

theorem overlap_check {a b : GoString} {e : PlanError} : (do
      let overlap ← bindingSourcesOverlap host a b
      reject (overlap = true) e) = .ok () ↔ a ≠ b ∧ Apart host a b := by
  rw [← overlap_eq_false]
  simp only [ok_iff, Bool.not_eq_true]
  constructor
  · rintro ⟨x, hx, rfl⟩
    exact hx
  · intro h
    exact ⟨_, h, rfl⟩

theorem checkApart_eq_ok {l : List Plan} : checkApart host l = .ok () ↔
    l.Pairwise fun p q => ∀ a ∈ p.bindings, ∀ b ∈ q.bindings, a.source ≠ b.source ∧
      Apart host a.source b.source := by
  induction l with
  | nil => simp [checkApart, pure_eq_ok]
  | cons p l ih =>
    simp only [checkApart, bind_eq_ok, List.pairwise_cons, ih]
    constructor
    · rintro ⟨u, hu, hl⟩
      refine ⟨fun q hq a ha b hb => ?_, hl⟩
      exact overlap_check.mp (forM_eq_ok.mp (forM_eq_ok.mp (forM_eq_ok.mp hu a ha) q hq) b hb)
    · rintro ⟨hu, hl⟩
      refine ⟨⟨⟩, ?_, hl⟩
      exact forM_eq_ok.mpr fun a ha => forM_eq_ok.mpr fun q hq => forM_eq_ok.mpr fun b hb =>
        overlap_check.mpr (hu q hq a ha b hb)

theorem load_eq_ok {file : File} {value : Plans} :
    load host (some file) = .ok value ↔ JsonObject.decode file = some value ∧
      Stored host value := by
  have hseen := foldlM_seen reserveTarget_eq_ok (plansOf value) []
  simp only [List.not_mem_nil, false_imp_iff, implies_true, and_true, true_and] at hseen
  simp only [load, ok_iff]
  constructor
  · rintro ⟨v, hv, u, hu, r, hr, w, hw, rfl⟩
    have hentry (e) (he : e ∈ v.entries) : e.1 = e.2.id ∧ ValidPlan host e.2 := by
      have hcheck := forM_eq_ok.mp hu e he
      simp only [validateEntry, ok_iff, not_not, validatePlan_eq_ok] at hcheck
      obtain ⟨-, hkey, hplan⟩ := hcheck
      exact ⟨hkey, hplan⟩
    refine ⟨hv, fun e he => (hentry e he).1, fun p hp => ?_, ?_⟩
    · obtain ⟨e, he, rfl⟩ := List.mem_map.mp hp
      exact (hentry e he).2
    · refine (hseen.mp ⟨r, hr⟩).imp₂ (fun p q ht hs => ?_) (checkApart_eq_ok.mp hw)
      exact ⟨ht, fun a ha b hb => (hs a ha b hb).1, fun a ha b hb => (hs a ha b hb).2⟩
  · rintro ⟨hv, h⟩
    obtain ⟨r, hr⟩ := hseen.mpr (h.compatible.imp Compatible.target)
    refine ⟨value, hv, ⟨⟩, forM_eq_ok.mpr fun e he => ?_, r, hr, ⟨⟩, checkApart_eq_ok.mpr ?_, rfl⟩
    · simp only [validateEntry, ok_iff, not_not, validatePlan_eq_ok]
      exact ⟨⟨⟩, h.key e he, h.valid e.2 (List.mem_map_of_mem he)⟩
    · exact h.compatible.imp fun hc a ha b hb => ⟨hc.source a ha b hb, hc.apart a ha b hb⟩

end validation

section texts

variable {r : Rune} {s raw b kind : GoString}

theorem mem_trimSpace_or (h : r ∈ s) : r ∈ trimSpace s ∨ isSpace r = true := by
  have hleft : r ∈ s.dropWhile isSpace ∨ isSpace r = true := by
    rw [← List.takeWhile_append_dropWhile (p := isSpace) (l := s), List.mem_append] at h
    rcases h with h | h
    · exact .inr (List.mem_takeWhile_imp h)
    · exact .inl h
  rcases hleft with h | h
  · rw [← List.rdropWhile_append_rtakeWhile (p := isSpace) (l := s.dropWhile isSpace),
      List.mem_append] at h
    rcases h with h | h
    · exact .inl h
    · exact .inr (List.mem_rtakeWhile_imp h)
  · exact .inr h

theorem rune_of_branchName {name : GoString} (h : BranchName name) (hr : r ∈ name) :
    r = slash ∨ validRune r = true := by
  rw [← join_split name] at hr
  rcases mem_join hr with rfl | ⟨s, hs, hrs⟩
  · exact .inl rfl
  · have hvalid := h.segments s hs
    simp only [validIdentifier, Bool.and_eq_true, List.all_eq_true] at hvalid
    exact .inr (hvalid.2 r hrs)

theorem rune_of_selector (h : normalizeSelector raw = .ok b) (hr : r ∈ raw) :
    isSpace r = true ∨ r = slash ∨ validRune r = true := by
  rcases mem_trimSpace_or hr with hr | hr
  · right
    unfold normalizeSelector at h
    split_ifs at h with hmain
    · rcases hmain with hnil | hmain
      · simp [hnil] at hr
      · rw [hmain] at hr
        exact .inr ((by decide : ∀ r ∈ mainBranch, validRune r = true) r hr)
    · obtain ⟨hname, -⟩ := normalizeExplicit_eq_ok.mp h
      rw [trimSpace_trimSpace] at hname
      unfold BucketBranch.trimPrefix at hname
      split_ifs at hname with hheads
      · obtain ⟨t, ht⟩ := hasPrefix_iff.mp hheads
        rw [← ht] at hr hname
        rw [List.drop_left] at hname
        rcases List.mem_append.mp hr with hr | hr
        · exact (by decide : ∀ r ∈ BucketBranch.headsPrefix, r = slash ∨ validRune r = true) r hr
        · exact rune_of_branchName hname hr
      · exact rune_of_branchName hname hr
  · exact .inl hr

theorem nul_notMem_selector (h : normalizeSelector raw = .ok b) : Rune.char nul ∉ raw := by
  intro hr
  rcases rune_of_selector h hr with hs | hs | hs
  · exact absurd hs (by decide)
  · exact absurd hs (by decide)
  · exact absurd hs (by decide)

theorem valid_of_selector (h : normalizeSelector raw = .ok b) : validString raw = true := by
  refine List.all_eq_true.mpr fun r hr => ?_
  cases r with
  | char c => rfl
  | bad byte =>
    rcases rune_of_selector h hr with hs | hs | hs
    · simp [isSpace] at hs
    · simp [slash] at hs
    · simp [validRune] at hs

theorem selector_ne_nil (h : normalizeSelector raw = .ok b) : b ≠ [] := by
  rcases normalizeSelector_cases h with rfl | ⟨name, hname, rfl⟩
  · decide
  · exact hname.selectorOf_ne.1

theorem targetOf_injective {p q : Plan} (hp : Rune.char nul ∉ p.branch)
    (hq : Rune.char nul ∉ q.branch)
    (h : targetOf p = targetOf q) : p.bucketID = q.bucketID ∧ p.branch = q.branch := by
  rcases List.append_eq_append_iff.mp h with ⟨t, hid, hbranch⟩ | ⟨t, hid, hbranch⟩
  · cases t with
    | nil => simp at hid hbranch; exact ⟨hid.symm, hbranch⟩
    | cons r t =>
      rw [List.cons_append, List.cons.injEq] at hbranch
      exact absurd (hbranch.2 ▸ (by simp : Rune.char nul ∈ t ++ Rune.char nul :: q.branch)) hp
  · cases t with
    | nil => simp at hid hbranch; exact ⟨hid, hbranch.symm⟩
    | cons r t =>
      rw [List.cons_append, List.cons.injEq] at hbranch
      exact absurd (hbranch.2 ▸ (by simp : Rune.char nul ∈ t ++ Rune.char nul :: p.branch)) hq

theorem mem_encodeToString {l : List Nat} (h : r ∈ encodeToString l) :
    r ∈ base64Alphabet.map Rune.char := by
  have hdigit (n : Nat) : base64Digit n ∈ base64Alphabet.map Rune.char := by
    refine List.mem_map_of_mem ?_
    rw [List.getD_eq_getElem?_getD]
    cases hn : base64Alphabet[n]? with
    | none => decide
    | some c => exact List.mem_of_getElem? hn
  fun_induction encodeToString l with
  | case1 a b c rest ih =>
    simp only [List.mem_cons] at h
    rcases h with rfl | rfl | rfl | rfl | h
    · exact hdigit _
    · exact hdigit _
    · exact hdigit _
    · exact hdigit _
    · exact ih h
  | case2 a b =>
    simp only [List.mem_cons, List.not_mem_nil, or_false] at h
    rcases h with rfl | rfl | rfl
    · exact hdigit _
    · exact hdigit _
    · exact hdigit _
  | case3 a =>
    simp only [List.mem_cons, List.not_mem_nil, or_false] at h
    rcases h with rfl | rfl
    · exact hdigit _
    · exact hdigit _
  | case4 => simp at h

theorem length_encodeToString (l : List Nat) : (encodeToString l).length ≤ 2 * l.length := by
  fun_induction encodeToString l with
  | case1 a b c rest ih =>
    simp only [List.length_cons]
    omega
  | case2 a b => simp
  | case3 a => simp
  | case4 => simp

theorem validateOpaqueID_of_alphabet (hne : s ≠ []) (hlength : s.length ≤ 128)
    (h : ∀ r ∈ s, r ∈ base64Alphabet.map Rune.char) : validateOpaqueID s kind = .ok () := by
  have halphabet : ∀ r ∈ base64Alphabet.map Rune.char, r.isValid = true ∧ isSpace r = false ∧
      (bytes [r]).length = 1 ∧ r ∉ ['/', '\\', ' ', '\t', '\r', '\n', nul].map Rune.char := by
        decide +kernel
  have hbytes : ∀ s :
    GoString, (∀ r ∈ s, r ∈ base64Alphabet.map Rune.char) → (bytes s).length = s.length := by
    intro s hs
    induction s with
    | nil => rfl
    | cons r s ih =>
      have hr : bytes (r :: s) = bytes [r] ++ bytes s := by simp [bytes]
      rw [hr, List.length_append, (halphabet r (hs r (by simp))).2.2.1, ih fun r' hr' =>
        hs r' (by simp [hr']), List.length_cons]
      omega
  have hchars (c : Char) (hc : c ∈ ['/', '\\', ' ', '\t', '\r', '\n', nul]) :
    containsRune s c = false := by
    rw [Bool.eq_false_iff]
    intro hm
    exact (halphabet _ (h _ (List.contains_iff_mem.mp hm))).2.2.2 (List.mem_map_of_mem hc)
  simp only [validateOpaqueID, reject_eq_ok, not_or, Bool.not_eq_false, Bool.not_eq_true, not_lt,
    ne_eq, not_not]
  refine ⟨List.all_eq_true.mpr fun r hr => (halphabet r (h r hr)).1, ?_, hne,
    (hbytes s h).le.trans hlength, ?_, ?_⟩
  · refine trimSpace_eq_self (fun r hr => ?_) fun r hr => ?_
    · exact (halphabet r (h r (List.mem_of_mem_head? hr))).2.1
    · exact (halphabet r (h r (List.mem_of_mem_getLast? hr))).2.1
  · simp [containsAny, hchars]
  · simp [containsAny, hchars]

theorem validateOpaqueID_random {label : GoString} (raw : Random) (hlength : kind.length ≤ 64)
    (h : ∀ r ∈ kind, r ∈ base64Alphabet.map Rune.char) :
    validateOpaqueID (randomPlanID kind raw) label = .ok () := by
  have hencoded := length_encodeToString ((List.ofFn raw).map UInt8.toNat)
  simp only [List.length_map, List.length_ofFn] at hencoded
  refine validateOpaqueID_of_alphabet (by simp [randomPlanID]) ?_ fun r hr => ?_
  · simp only [randomPlanID, List.length_append, List.length_cons]
    omega
  · rw [randomPlanID, List.mem_append, List.mem_cons] at hr
    rcases hr with hr | rfl | hr
    · exact h r hr
    · decide
    · exact mem_encodeToString hr

end texts

section insert

variable {host : Host} {value : Plans}

theorem Stored.compatible_of_ne (h : Stored host value) {p q : Plan} (hp : p ∈ plansOf value)
    (hq : q ∈ plansOf value) (hne : p.id ≠ q.id) : Compatible host p q :=
  h.compatible.forall hp hq fun he => hne (congrArg Plan.id he)

theorem Stored.insert (h : Stored host value) {plan : Plan} (hvalid : ValidPlan host plan)
    (hothers : ∀ q ∈ plansOf value, q.id ≠ plan.id → Compatible host plan q) :
    Stored host (value.insert plan.id plan) := by
  have hsub : value.entries.kerase plan.id ⊆ value.entries :=
    (List.kerase_sublist plan.id value.entries).subset
  have hplans :
    plansOf (value.insert plan.id plan) = plan :: (value.entries.kerase plan.id).map Sigma.snd := by
    rw [plansOf, AList.entries_insert, List.map_cons]
  refine ⟨fun e he => ?_, fun p hp => ?_, ?_⟩
  · rw [AList.entries_insert, List.mem_cons] at he
    rcases he with rfl | he
    · rfl
    · exact h.key e (hsub he)
  · rw [hplans, List.mem_cons] at hp
    rcases hp with rfl | hp
    · exact hvalid
    · obtain ⟨e, he, rfl⟩ := List.mem_map.mp hp
      exact h.valid e.2 (List.mem_map_of_mem (hsub he))
  · rw [hplans, List.pairwise_cons]
    refine ⟨fun q hq => ?_,
      h.compatible.sublist ((List.kerase_sublist plan.id value.entries).map _)⟩
    obtain ⟨e, he, rfl⟩ := List.mem_map.mp hq
    refine hothers e.2 (List.mem_map_of_mem (hsub he)) fun hid => ?_
    have hkey : e.1 = plan.id := (h.key e (hsub he)).trans hid
    have hmem : e.1 ∈ (value.entries.kerase plan.id).keys := List.mem_keys_of_mem he
    rw [hkey] at hmem
    exact List.notMem_keys_kerase plan.id value.nodupKeys hmem

theorem Stored.reschedule (h : Stored host value) {plan plan' : Plan} (hplan : plan ∈ plansOf value)
    (hid : plan'.id = plan.id) (hvalid : ValidPlan host plan')
    (htarget : targetOf plan' = targetOf plan)
    (hbindings : plan'.bindings = plan.bindings) : Stored host (value.insert plan'.id plan') := by
  refine h.insert hvalid fun q hq hne => ?_
  have hc := h.compatible_of_ne hplan hq (hid ▸ hne.symm)
  exact ⟨htarget ▸ hc.target, hbindings ▸ hc.source, hbindings ▸ hc.apart⟩

end insert

section calls

variable {host : Host} {value written : Plans}

variable {selector bucketID branch : GoString} {bound : Bound} {request : BindRequest} {now : Now}
  {binding : Binding}

theorem selectPlan_eq_ok {id : GoString} {plan : Plan} (hkey : ∀ e ∈ value.entries, e.1 = e.2.id)
    (h : selectPlan value selector = .ok (id, plan)) : plan ∈ plansOf value ∧ id = plan.id := by
  unfold selectPlan at h
  cases hl : value.lookup (trimSpace selector) with
  | some p =>
    simp only [hl, pure_eq_ok, Prod.mk.injEq] at h
    obtain ⟨rfl, rfl⟩ := h
    have he := mem_entries_iff.mpr hl
    exact ⟨List.mem_map_of_mem he, hkey _ he⟩
  | none =>
    simp only [hl] at h
    cases hf : value.entries.filter fun e => e.2.name = trimSpace selector with
    | nil => simp [hf] at h
    | cons e rest =>
      cases rest with
      | cons e' rest => simp [hf] at h
      | nil =>
        simp only [hf, pure_eq_ok, Prod.mk.injEq] at h
        obtain ⟨rfl, rfl⟩ := h
        have he : e ∈ value.entries := List.mem_of_mem_filter (hf ▸ List.mem_singleton_self e)
        exact ⟨List.mem_map_of_mem he, hkey _ he⟩

theorem reschedule_eq_ok {change : Plan → Plan} (hkey : ∀ e ∈ value.entries, e.1 = e.2.id)
    (h : reschedule selector change value = .ok written) :
    ∃ plan ∈ plansOf value, written = value.insert plan.id (change plan) := by
  simp only [reschedule, ok_iff] at h
  obtain ⟨⟨id, plan⟩, hselect, rfl⟩ := h
  obtain ⟨hmem, rfl⟩ := selectPlan_eq_ok hkey hselect
  exact ⟨plan, hmem, rfl⟩

theorem Binding.json_eq_self {b : Binding} :
    b.json = b ↔ validString b.id = true ∧ validString b.name = true ∧
    validString b.source = true ∧ validString b.pathName = true := by
  obtain ⟨id, name, source, pathName, createdAt⟩ := b
  simp [Binding.json, JsonObject.jsonText_eq_self_iff]

theorem Plan.json_eq_self {p : Plan} :
    p.json = p ↔ validString p.id = true ∧ validString p.name = true ∧
    validString p.bucketID = true ∧ validString p.bucketName = true ∧ validString p.branch = true ∧
    (∀ b ∈ p.bindings, b.json = b) ∧ validString p.message = true := by
  obtain ⟨id, name, bucketID, bucketName, branch, bindings, every, enabled, message, createdAt,
    updatedAt⟩ := p
  simp [Plan.json, JsonObject.jsonText_eq_self_iff, JsonObject.map_eq_self_iff]

theorem Plan.json_eq_self_iff {p : Plan} : p.json = p ↔ JsonObject.Valid p.texts := by
  have hbinding (b : Binding) : b.json = b ↔ JsonObject.Valid b.texts := by
    cases b
    simp [Binding.json, Binding.texts]
  cases p
  simp [Plan.json, Plan.texts, JsonObject.valid_flatMap hbinding]

/-- What `Bind` prepares. -/
structure Prepared (host : Host) (bound : Bound) : Prop where
  branch : ∃ raw, normalizeSelector raw = .ok bound.branch
  bucketID : bound.bucketID ≠ []
  source : bound.source ≠ []
  bindingName : bound.bindingName ≠ [] ∧ validString bound.bindingName = true
  pathName : bound.pathName ≠ [] ∧ validString bound.pathName = true

theorem displayName_eq_ok {s kind : GoString} (h : validateDisplayName s kind = .ok ()) :
    s ≠ [] ∧ validString s = true := by
  simp only [validateDisplayName, reject_eq_ok, not_or, Bool.not_eq_false] at h
  refine ⟨?_, h.1⟩
  rintro rfl
  exact h.2.1 rfl

theorem prepareBind_eq_ok (h : prepareBind host request = .ok bound) :
    Prepared host bound := by
  simp only [prepareBind, normalizePlanBranch, ok_iff] at h
  obtain ⟨branch, hbranch, -, hbucket, -, -, source, hsource, isDir, -, -, -, _, hname, _,
    hpath, rfl⟩ := h
  have hsource' : source ≠ [] := by
    obtain ⟨ps, -, rfl⟩ := exists_of_abs hsource
    simp
  have hpath' : ∀ {s : GoString}, validatePathName s = .ok () → s ≠ [] ∧ validString s = true := by
    intro s hs
    simp only [validatePathName, reject_eq_ok, not_or, Bool.not_eq_false] at hs
    exact ⟨hs.2.1, hs.1⟩
  exact ⟨⟨_, hbranch⟩, hbucket, hsource', displayName_eq_ok hname, hpath' hpath⟩

theorem checkFree_eq_ok {source : GoString} {plan : Plan} :
    checkFree host source plan = .ok () ↔ ∀ b ∈ plan.bindings, b.source ≠ source ∧
      Apart host b.source source := by
  simp only [checkFree, forM_eq_ok]
  exact forall₂_congr fun b hb => overlap_check

theorem addBinding_eq_ok {plan plan' : Plan} (h : addBinding plan binding now = .ok plan') :
    plan' = plan.withBinding binding now ∧
      ∀ b ∈ plan.bindings, b.name ≠ binding.name ∧ b.pathName ≠ binding.pathName := by
  simp only [addBinding, ok_iff] at h
  obtain ⟨u, hu, rfl⟩ := h
  refine ⟨rfl, fun b hb => ?_⟩
  have hcheck := forM_eq_ok.mp hu b hb
  simp only [ok_iff] at hcheck
  obtain ⟨-, hname, hpath⟩ := hcheck
  exact ⟨hname, hpath⟩

theorem ValidPlan.add {plan : Plan} (h : ValidPlan host plan) (hb : CompleteBinding binding)
    (hdiffer : ∀ b ∈ plan.bindings, Differ b binding)
    (hapart : ∀ b ∈ plan.bindings, Apart host b.source binding.source)
    (now : Now) : ValidPlan host (plan.withBinding binding now) := by
  have hperm := sortOn_perm Binding.name (plan.bindings ++ [binding])
  refine ⟨h.bucketID, h.name, h.branch_ne, h.createdAt, h.identity, h.branch,
    fun b hmem => ?_, ?_, ?_⟩
  · rcases List.mem_append.mp (hperm.subset hmem) with hmem | hmem
    · exact h.complete b hmem
    · rw [List.mem_singleton.mp hmem]
      exact hb
  · refine (hperm.pairwise_iff Differ.symm).mpr (List.pairwise_append.mpr ⟨h.differ, ?_, ?_⟩)
    · exact List.pairwise_singleton _ _
    · simpa using hdiffer
  · refine (hperm.pairwise_iff Apart.symm).mpr (List.pairwise_append.mpr ⟨h.apart, ?_, ?_⟩)
    · exact List.pairwise_singleton _ _
    · simpa using hapart

theorem Compatible.add {plan q : Plan} (h : Compatible host plan q)
    (hfree : ∀ b ∈ q.bindings, b.source ≠ binding.source ∧ Apart host b.source binding.source)
    (now : Now) : Compatible host (plan.withBinding binding now) q := by
  have hmem (a : Binding) (ha : a ∈ sortOn Binding.name (plan.bindings ++ [binding])) :
    a ∈ plan.bindings ∨ a = binding := by
    simpa using (sortOn_perm _ _).subset ha
  refine ⟨h.target, fun a ha b hb => ?_, fun a ha b hb => ?_⟩
  · rcases hmem a ha with ha | rfl
    · exact h.source a ha b hb
    · exact (hfree b hb).1.symm
  · rcases hmem a ha with ha | rfl
    · exact h.apart a ha b hb
    · exact (hfree b hb).2.symm

theorem findTarget_eq_some {plan : Plan} (h : findTarget value bucketID branch = some plan) :
    plan ∈ plansOf value ∧ plan.bucketID = bucketID ∧ plan.branch = branch := by
  refine ⟨List.mem_of_find?_eq_some h, ?_⟩
  simpa using List.find?_some h

theorem findTarget_eq_none (h : findTarget value bucketID branch = none) :
    ∀ q ∈ plansOf value, ¬ (q.bucketID = bucketID ∧ q.branch = branch) := by
  intro q hq
  simpa using List.find?_eq_none.mp h q hq

theorem targetPlan_eq_ok {merge : Bool} {raw : Random} {plan : Plan}
    (hstored : Stored host value) (hbound : Prepared host bound)
    (h : targetPlan value bound merge raw now = .ok plan) :
    ValidPlan host plan ∧ (∀ q ∈ plansOf value, q.id ≠ plan.id → Compatible host plan q) ∧
      plan.bucketID = bound.bucketID ∧ plan.branch = bound.branch ∧
      (findTarget value bound.bucketID bound.branch = some plan ∨
        (findTarget value bound.bucketID bound.branch = none ∧
          plan.id = randomPlanID (text "plan") raw ∧
          plan.bindings = [] ∧ plan.bucketName = bound.bucketName ∧ validString plan.name = true ∧
            plan.message = [])) := by
  unfold targetPlan at h
  cases hfind : findTarget value bound.bucketID bound.branch with
  | some found =>
    simp only [hfind, ok_iff] at h
    obtain ⟨-, -, rfl⟩ := h
    obtain ⟨hmem, hbucket, hbranch⟩ := findTarget_eq_some hfind
    exact ⟨hstored.valid _ hmem, fun q hq hne => hstored.compatible_of_ne hmem hq hne.symm, hbucket,
      hbranch, .inl rfl⟩
  | none =>
    simp only [hfind, newPlan, ok_iff] at h
    obtain ⟨_, hname, rfl⟩ := h
    obtain ⟨hne, hvalid⟩ := displayName_eq_ok hname
    obtain ⟨rawBranch, hraw⟩ := hbound.branch
    have hnormal := BucketBranch.normalizeSelector_idem hraw
    have hid : validateOpaqueID (randomPlanID (text "plan") raw) (text "plan") = .ok () :=
      validateOpaqueID_random raw (by decide) (by decide)
    refine ⟨⟨hbound.bucketID, hne, selector_ne_nil hraw, now.2, hid, ⟨_, hnormal⟩, by simp, .nil,
      .nil⟩, ?_, rfl, rfl, .inr ⟨rfl, rfl, rfl, rfl, hvalid, rfl⟩⟩
    intro q hq _
    refine ⟨fun heq => ?_, by simp, by simp⟩
    obtain ⟨b, hb⟩ := (hstored.valid q hq).branch
    obtain ⟨hbucket, hbranch⟩ := targetOf_injective (nul_notMem_selector hnormal)
      (nul_notMem_selector hb) heq
    exact findTarget_eq_none hfind q hq ⟨hbucket.symm, hbranch.symm⟩

theorem exists_of_bind {planRaw bindingRaw : Random} (hstored : Stored host value)
    (h : bind host request planRaw bindingRaw now value = .ok written) :
    ∃ bound plan, prepareBind host request = .ok bound ∧
      targetPlan value bound request.merge planRaw now = .ok plan ∧
      written = value.insert plan.id (plan.withBinding (bound.binding bindingRaw now) now) ∧
        Stored host written := by
  simp only [bind, ok_iff] at h
  obtain ⟨bound, hbound, _, hfree, plan, hplan, plan', hadd, rfl⟩ := h
  have hprepared := prepareBind_eq_ok hbound
  obtain ⟨hvalid, hothers, -, -, hfound⟩ := targetPlan_eq_ok hstored hprepared hplan
  obtain ⟨rfl, hnames⟩ := addBinding_eq_ok hadd
  have hfree' : ∀ q ∈ plansOf value, ∀ b ∈ q.bindings, b.source ≠ bound.source ∧
    Apart host b.source bound.source :=
    fun q hq => checkFree_eq_ok.mp (forM_eq_ok.mp hfree q hq)
  have hown : ∀ b ∈ plan.bindings, b.source ≠ bound.source ∧ Apart host b.source bound.source := by
    rcases hfound with hfound | ⟨-, -, hnil, -⟩
    · exact hfree' plan (findTarget_eq_some hfound).1
    · simp [hnil]
  refine ⟨bound, plan, hbound, hplan, rfl, ?_⟩
  refine hstored.insert (hvalid.add ?_ (fun b hb => ?_) (fun b hb => (hown b hb).2) now)
    fun q hq hne => ?_
  · exact ⟨hprepared.bindingName.1, hprepared.source, hprepared.pathName.1, now.2,
      validateOpaqueID_random bindingRaw (by decide) (by decide)⟩
  · exact ⟨(hnames b hb).1, (hown b hb).1, (hnames b hb).2⟩
  · exact (hothers q hq hne).add (hfree' q hq) now

end calls

section exclusive

variable {host : Host} {value written : Plans}

def Single (value : Plans) : Prop :=
  ∀ p ∈ plansOf value, ∀ q ∈ plansOf value, p.bucketID = q.bucketID →
    normalizeSelector p.branch = normalizeSelector q.branch → p.id = q.id

structure Exclusive (host : Host) (value : Plans) : Prop where
  single : Single value
  apart : ((plansOf value).flatMap Plan.bindings).Pairwise fun a b =>
    ¬ Inside host a.source b.source ∧ ¬ Inside host b.source a.source

theorem Stored.exclusive_iff (h : Stored host value) : Exclusive host value ↔ Single value := by
  refine ⟨Exclusive.single, fun hs => ⟨hs, List.pairwise_flatMap.mpr ⟨fun p hp => ?_, ?_⟩⟩⟩
  · exact (h.valid p hp).apart.imp Apart.not_inside
  · exact h.compatible.imp fun hc a ha b hb => (hc.apart a ha b hb).not_inside

variable {p : Plan} {bound : Bound} {now : Now} {planRaw bindingRaw : Random}
  {request : BindRequest}

theorem mem_plansOf_insert (hkey : ∀ e ∈ value.entries, e.1 = e.2.id) {plan : Plan} :
    p ∈ plansOf (value.insert plan.id plan) ↔ p = plan ∨ (p ∈ plansOf value ∧ p.id ≠ plan.id) := by
  have hfind (m : Plans) {p : Plan} : p ∈ plansOf m ↔ ∃ k, m.lookup k = some p := by
    simp only [plansOf, List.mem_map, ← mem_entries_iff]
    exact ⟨fun ⟨e, he, hp⟩ => ⟨e.1, hp ▸ he⟩, fun ⟨k, hk⟩ => ⟨_, hk, rfl⟩⟩
  rw [hfind, hfind]
  simp only [lookup_insert_eq]
  constructor
  · rintro ⟨k, hk⟩
    split_ifs at hk with hid
    · exact .inl (Option.some.inj hk).symm
    · have hk' : k = p.id := hkey _ (mem_entries_iff.mpr hk)
      exact .inr ⟨⟨k, hk⟩, hk' ▸ hid⟩
  · rintro (rfl | ⟨⟨k, hk⟩, hne⟩)
    · exact ⟨p.id, if_pos rfl⟩
    · have hk' : k = p.id := hkey _ (mem_entries_iff.mpr hk)
      exact ⟨k, by rw [if_neg (hk' ▸ hne), hk]⟩

theorem single_insert (hkey : ∀ e ∈ value.entries, e.1 = e.2.id) (h : Single value) {plan : Plan} :
    Single (value.insert plan.id plan) ↔ ∀ q ∈ plansOf value, q.id ≠ plan.id → q.bucketID =
      plan.bucketID → normalizeSelector q.branch ≠ normalizeSelector plan.branch := by
  constructor
  · intro hs q hq hne hbucket hbranch
    exact hne (hs q ((mem_plansOf_insert hkey).mpr (.inr ⟨hq, hne⟩)) plan
      ((mem_plansOf_insert hkey).mpr (.inl rfl))
      hbucket hbranch)
  · intro hs p hp q hq hbucket hbranch
    rcases (mem_plansOf_insert hkey).mp hp with rfl | ⟨hold, hne⟩
    · rcases (mem_plansOf_insert hkey).mp hq with rfl | ⟨hold, hne⟩
      · rfl
      · exact absurd hbranch.symm (hs q hold hne hbucket.symm)
    · rcases (mem_plansOf_insert hkey).mp hq with rfl | ⟨hold', -⟩
      · exact absurd hbranch (hs p hold hne hbucket)
      · exact h p hold q hold' hbucket hbranch

/-- What a call needs for the store to read back its plans and to keep its
rules. -/
def Safe (host : Host) (value : Plans) : Call → Prop
  | .bind request planRaw _ _ => ∀ bound, prepareBind host request = .ok bound →
    validString bound.source = true ∧
      (findTarget value bound.bucketID bound.branch = none →
        validString bound.bucketID = true ∧ validString bound.bucketName = true ∧
          ∀ q ∈ plansOf value, q.id ≠ randomPlanID (text "plan") planRaw → q.bucketID =
            bound.bucketID → normalizeSelector q.branch ≠ .ok bound.branch)
  | .setSchedule _ _ _ message _ => validString message = true
  | .clearSchedule _ _ => True
  | .importRestored plan => JsonObject.Valid plan.texts ∧
    ∀ q ∈ plansOf value, q.bucketID = plan.bucketID → normalizeSelector q.branch ≠
      normalizeSelector plan.branch

def Exact (host : Host) (disk : Option File) (written : Plans) : Prop :=
  load host disk = .ok written ∧ Exclusive host written

theorem Stored.exact_iff (h : Stored host written) :
    Exact host (some (JsonObject.encode Plan.json written)) written ↔
      JsonObject.Normal Plan.json written ∧ Single written := by
  rw [Exact, load_eq_ok, h.exclusive_iff, JsonObject.decode_encode_eq_self, and_iff_left h]

theorem Stored.exact_insert_iff (h : Stored host value)
    (hnormal : JsonObject.Normal Plan.json value)
    (hsingle : Single value) {plan : Plan} (hstored : Stored host (value.insert plan.id plan)) :
    Exact host (some (JsonObject.encode Plan.json (value.insert plan.id plan)))
      (value.insert plan.id plan) ↔
      plan.json = plan ∧ ∀ q ∈ plansOf value, q.id ≠ plan.id → q.bucketID = plan.bucketID →
        normalizeSelector q.branch ≠ normalizeSelector plan.branch := by
  rw [hstored.exact_iff, JsonObject.normal_insert hnormal, single_insert h.key hsingle]
  have hid (hj : plan.json = plan) : jsonText plan.id = plan.id :=
    JsonObject.jsonText_eq_self_iff.mpr (Plan.json_eq_self.mp hj).1
  constructor
  · rintro ⟨⟨-, hj⟩, hs⟩
    exact ⟨hj, hs⟩
  · rintro ⟨hj, hs⟩
    exact ⟨⟨hid hj, hj⟩, hs⟩

theorem json_of_mem (h : JsonObject.Normal Plan.json value) (hp : p ∈ plansOf value) :
    p.json = p := by
  obtain ⟨e, he, rfl⟩ := List.mem_map.mp hp
  exact (JsonObject.normal_iff.mp h e he).2

theorem reschedule_exact_iff (h : Stored host value) (hnormal : JsonObject.Normal Plan.json value)
    (hsingle : Single value) {selector : GoString} {change : Plan → Plan}
    (hchange : ∀ p, (change p).id = p.id ∧ (change p).bucketID = p.bucketID ∧
      (change p).branch = p.branch ∧
      (change p).bindings = p.bindings ∧ (change p).name = p.name ∧ (change p).bucketName =
        p.bucketName ∧
      (change p).createdAt = p.createdAt)
    (hedit : reschedule selector change value = .ok written) :
    ∃ plan, Exact host (some (JsonObject.encode Plan.json written)) written ↔
      validString (change plan).message = true := by
  obtain ⟨plan, hmem, rfl⟩ := reschedule_eq_ok h.key hedit
  refine ⟨plan, ?_⟩
  obtain ⟨hid, hbucket, hbranch, hbindings, hname, hbucketName, htime⟩ := hchange plan
  have hvalid := h.valid plan hmem
  have hvalid' : ValidPlan host (change plan) := by
    constructor
    · exact hbucket ▸ hvalid.bucketID
    · exact hname ▸ hvalid.name
    · exact hbranch ▸ hvalid.branch_ne
    · exact htime ▸ hvalid.createdAt
    · exact hid ▸ hvalid.identity
    · exact hbranch ▸ hvalid.branch
    · exact hbindings ▸ hvalid.complete
    · exact hbindings ▸ hvalid.differ
    · exact hbindings ▸ hvalid.apart
  have htarget :
    targetOf (change plan) = targetOf plan := by rw [targetOf, hbucket, hbranch, targetOf]
  have hstored := h.reschedule hmem hid hvalid' htarget hbindings
  rw [← hid, h.exact_insert_iff hnormal hsingle hstored, Plan.json_eq_self, hid, hname, hbucket,
    hbucketName, hbranch, hbindings]
  have hold := Plan.json_eq_self.mp (json_of_mem hnormal hmem)
  have hothers : ∀ q ∈ plansOf value, q.id ≠ plan.id → q.bucketID = plan.bucketID →
      normalizeSelector q.branch ≠ normalizeSelector plan.branch :=
    fun q hq hne hb hbr => hne (hsingle q hq plan hmem hb hbr)
  tauto

theorem valid_of_opaqueID {s kind : GoString} (h : validateOpaqueID s kind = .ok ()) :
    validString s = true := by
  simp only [validateOpaqueID, reject_eq_ok, not_or, Bool.not_eq_false] at h
  exact h.1

theorem safe_bind_iff (hbound : prepareBind host request = .ok bound) :
    Safe host value (.bind request planRaw bindingRaw now) ↔ validString bound.source = true ∧
      (findTarget value bound.bucketID bound.branch = none →
        validString bound.bucketID = true ∧ validString bound.bucketName = true ∧
          ∀ q ∈ plansOf value, q.id ≠ randomPlanID (text "plan") planRaw → q.bucketID =
            bound.bucketID → normalizeSelector q.branch ≠ .ok bound.branch) := by
  refine ⟨fun hs => hs bound hbound, fun hs bound' hbound' => ?_⟩
  obtain rfl := Except.ok.inj (hbound.symm.trans hbound')
  exact hs

theorem json_withBinding {plan : Plan} {raw : Random} (hprepared : Prepared host bound) :
    (plan.withBinding (bound.binding raw now) now).json =
      plan.withBinding (bound.binding raw now) now ↔
      plan.json = plan ∧ validString bound.source = true := by
  have hid : validString (randomPlanID (text "binding") raw) = true :=
    valid_of_opaqueID (validateOpaqueID_random raw (by decide) (by decide) :
      validateOpaqueID _ (text "binding") = _)
  have hbinding :
    (bound.binding raw now).json = bound.binding raw now ↔ validString bound.source = true := by
    rw [Binding.json_eq_self]
    simp [Bound.binding, hid, hprepared.bindingName.2, hprepared.pathName.2]
  have hbindings : (∀ b ∈ (plan.withBinding (bound.binding raw now) now).bindings, b.json = b) ↔
      (∀ b ∈ plan.bindings, b.json = b) ∧ validString bound.source = true := by
    rw [← hbinding]
    simp only [Plan.withBinding, (sortOn_perm _ _).mem_iff, List.mem_append, List.mem_singleton,
      or_imp, forall_and, forall_eq]
  rw [Plan.json_eq_self, Plan.json_eq_self, hbindings]
  simp only [Plan.withBinding]
  tauto

theorem bind_exact_iff (h : Stored host value) (hnormal : JsonObject.Normal Plan.json value)
    (hsingle : Single value)
    (hedit : bind host request planRaw bindingRaw now value = .ok written) :
    Exact host (some (JsonObject.encode Plan.json written)) written ↔
      Safe host value (.bind request planRaw bindingRaw now) := by
  obtain ⟨bound, plan, hbound, hplan, rfl, hstored⟩ := exists_of_bind h hedit
  have hprepared := prepareBind_eq_ok hbound
  obtain ⟨hvalid, -, hbucket, hbranch, hfound⟩ := targetPlan_eq_ok h hprepared hplan
  obtain ⟨raw, hraw⟩ := hprepared.branch
  have hnormalBranch := BucketBranch.normalizeSelector_idem hraw
  have hexact := @Stored.exact_insert_iff host value h hnormal hsingle
    (plan.withBinding (bound.binding bindingRaw now) now) hstored
  refine hexact.trans ?_
  rw [json_withBinding hprepared, safe_bind_iff hbound]
  simp only [Plan.withBinding]
  rcases hfound with hfound | ⟨hnone, hid, hnil, hname, hnameValid, hmessage⟩
  · have hmem := (findTarget_eq_some hfound).1
    have hothers : ∀ q ∈ plansOf value, q.id ≠ plan.id → q.bucketID = plan.bucketID →
        normalizeSelector q.branch ≠ normalizeSelector plan.branch :=
      fun q hq hne hb hbr => hne (hsingle q hq plan hmem hb hbr)
    have hold := json_of_mem hnormal hmem
    simp only [hfound, reduceCtorEq, false_imp_iff, and_true]
    tauto
  · have hplanID := valid_of_opaqueID hvalid.identity
    have hbranchValid : validString plan.branch = true := hbranch ▸ valid_of_selector hnormalBranch
    have hjson :
      plan.json = plan ↔ validString bound.bucketID = true ∧
        validString bound.bucketName = true := by
      rw [Plan.json_eq_self, hnil, hname, hbucket, hmessage]
      have hempty : validString [] = true := rfl
      simp [hplanID, hbranchValid, hnameValid, hempty]
    rw [hjson, hid, hbucket, hbranch, hnormalBranch]
    simp only [hnone, forall_const]
    tauto

theorem importRestored_exact_iff (h : Stored host value)
    (hnormal : JsonObject.Normal Plan.json value)
    (hsingle : Single value) {plan : Plan} (hedit : importRestored host plan value = .ok written) :
    Exact host (some (JsonObject.encode Plan.json written)) written ↔
      Safe host value (.importRestored plan) := by
  simp only [importRestored, ok_iff] at hedit
  obtain ⟨_, hvalid, -, -, -, hnew, _, hchecks, rfl⟩ := hedit
  have hplan := validatePlan_eq_ok.mp hvalid
  have hid (q : Plan) (hq : q ∈ plansOf value) : q.id ≠ plan.id := by
    obtain ⟨e, he, rfl⟩ := List.mem_map.mp hq
    intro heq
    exact hnew (by rw [← heq, ← h.key e he]; exact List.mem_keys_of_mem he)
  have hothers (q : Plan) (hq : q ∈ plansOf value) : Compatible host plan q := by
    have hcheck := forM_eq_ok.mp hchecks q hq
    simp only [checkRestored, ok_iff] at hcheck
    obtain ⟨-, htarget, hsources⟩ := hcheck
    have hapart (a) (ha : a ∈ plan.bindings) (b) (hb : b ∈ q.bindings) :=
      overlap_check.mp (forM_eq_ok.mp (forM_eq_ok.mp hsources b hb) a ha)
    obtain ⟨b, hb⟩ := hplan.branch
    obtain ⟨b', hb'⟩ := (h.valid q hq).branch
    refine ⟨fun heq => ?_, fun a ha b hb => (hapart a ha b hb).1.symm, fun a ha b hb =>
      (hapart a ha b hb).2.symm⟩
    obtain ⟨hbucket, hbranch⟩ := targetOf_injective (nul_notMem_selector hb)
      (nul_notMem_selector hb') heq
    exact htarget ⟨hbucket.symm, hbranch.symm⟩
  have hstored := h.insert hplan fun q hq _ => hothers q hq
  rw [h.exact_insert_iff hnormal hsingle hstored, Plan.json_eq_self_iff, Safe]
  refine and_congr_right fun _ => forall₂_congr fun q hq => ?_
  exact forall_prop_of_true (hid q hq)

theorem edit_exact_iff (h : Stored host value) (hnormal : JsonObject.Normal Plan.json value)
    (hsingle : Single value) (call : Call) (hedit : call.edit host value = .ok written) :
    Exact host (some (JsonObject.encode Plan.json written)) written ↔ Safe host value call := by
  cases call with
  | bind request planRaw bindingRaw now => exact bind_exact_iff h hnormal hsingle hedit
  | importRestored plan => exact importRestored_exact_iff h hnormal hsingle hedit
  | clearSchedule selector now =>
    have hedit' : clearSchedule selector now value = .ok written := hedit
    rw [clearSchedule] at hedit'
    obtain ⟨plan, hiff⟩ := reschedule_exact_iff h hnormal hsingle (by simp) hedit'
    exact hiff.trans (iff_of_true rfl trivial)
  | setSchedule selector every enabled message now =>
    have hedit' : setSchedule selector every enabled message now value = .ok written := hedit
    simp only [setSchedule, bind_eq_ok] at hedit'
    obtain ⟨-, -, hedit'⟩ := hedit'
    obtain ⟨plan, hiff⟩ := reschedule_exact_iff h hnormal hsingle (by simp) hedit'
    rw [hiff, Safe]
    simp [JsonObject.validString_trimSpace]

end exclusive

section runs

variable {host : Host}

/-- The call edits what it loads, and the edited plans can be marshalled. -/
structure Writes (host : Host) (disk : Option File) (c : Call × Fault) (value written : Plans) :
    Prop where
  loaded : load host disk = .ok value
  edited : c.1.edit host value = .ok written
  marshalled : write written = .ok (JsonObject.encode Plan.json written)
  fault : c.2 ≠ .aborted

theorem Writes.disk {disk : Option File} {c : Call × Fault} {value written : Plans}
    (h : Writes host disk c value written) :
    (mutate host c.1 c.2 disk).1 = some (JsonObject.encode Plan.json written) := by
  have hedit : (do
      let value ← c.1.edit host value
      return (value, ()) : Except PlanError (Plans × Unit)) = .ok (written, ()) := by
    rw [h.edited]
    rfl
  rw [mutate, (store host).update_of_ok h.fault h.loaded hedit h.marshalled]

theorem writes_or_unchanged (host : Host) (disk : Option File) (c : Call × Fault) :
    (∃ value written, Writes host disk c value written) ∨ (mutate host c.1 c.2 disk).1 = disk := by
  by_cases hf : c.2 = .aborted
  · rw [hf, mutate, (store host).update_aborted]
    exact .inr rfl
  unfold mutate
  rcases (store host).update_cases c.2 (fun value => do
    let value ← c.1.edit host value
    return (value, ())) disk with ⟨hsame, -⟩ | ⟨value, written, file, u, hload, hedit, hwrite, -, -⟩
  · exact .inr hsame
  · simp only [ok_iff, Prod.mk.injEq, and_true] at hedit
    obtain ⟨w, hw, rfl⟩ := hedit
    have hpersist : write w = .ok file := hwrite
    have hmarshalled := hpersist
    simp only [write, ok_iff] at hmarshalled
    obtain ⟨-, -, rfl⟩ := hmarshalled
    exact .inl ⟨value, w, hload, hw, hpersist, hf⟩

theorem run_append (host : Host) (calls : List (Call × Fault)) (c : Call × Fault) :
    run host (calls ++ [c]) = (mutate host c.1 c.2 (run host calls)).1 := by
  rw [run, List.foldl_append]
  rfl

theorem Plan.json_json (p : Plan) : p.json.json = p.json := by
  have hbinding (b : Binding) :
    b.json.json = b.json := by simp [Binding.json, JsonObject.jsonText_jsonText]
  simp [Plan.json, hbinding, JsonObject.jsonText_jsonText]

theorem run_cases (host : Host) (calls : List (Call × Fault)) :
    run host calls = none ∨ ∃ m, run host calls = some (JsonObject.encode Plan.json m) := by
  induction calls using List.reverseRecOn with
  | nil => exact .inl rfl
  | append_singleton calls c ih =>
    rw [run_append]
    rcases writes_or_unchanged host (run host calls) c with ⟨value, written, hw⟩ | hsame
    · exact .inr ⟨written, hw.disk⟩
    · rw [hsame]
      exact ih

variable {value : Plans} {calls : List (Call × Fault)}

theorem loaded_of_run (h : load host (run host calls) = .ok value) :
    Stored host value ∧ JsonObject.Normal Plan.json value := by
  rcases run_cases host calls with hnone | ⟨m, hm⟩
  · rw [hnone] at h
    cases h
    exact ⟨⟨by simp, by simp [plansOf], by simp [plansOf]⟩, by simp [JsonObject.Normal]⟩
  · rw [hm] at h
    obtain ⟨hdecode, hstored⟩ := load_eq_ok.mp h
    exact ⟨hstored, JsonObject.normal_of_decode Plan.json_json hdecode⟩

def ExactRun (host : Host) (calls : List (Call × Fault)) : Prop :=
  ∀ before c value written, before ++ [c] <+: calls →
    Writes host (run host before) c value written → Exact host (run host (before ++ [c])) written

theorem single_of_run (h : ExactRun host calls) (hload : load host (run host calls) = .ok value) :
    Single value := by
  induction calls using List.reverseRecOn generalizing value with
  | nil =>
    cases hload
    simp [Single, plansOf]
  | append_singleton calls c ih =>
    rcases writes_or_unchanged host (run host calls) c with ⟨value₀, written, hw⟩ | hsame
    · obtain ⟨hread, hexclusive⟩ := h calls c value₀ written (List.prefix_refl _) hw
      obtain rfl := Except.ok.inj (hread.symm.trans hload)
      exact hexclusive.single
    · rw [run_append, hsame] at hload
      exact ih (fun before c' v w hpre =>
        h before c' v w (hpre.trans (List.prefix_append _ _))) hload

theorem exact_iff_of_single {before : List (Call × Fault)} {c : Call × Fault} {written : Plans}
    (hw : Writes host (run host before) c value written) (hsingle : Single value) :
    Exact host (run host (before ++ [c])) written ↔ Safe host value c.1 := by
  obtain ⟨hstored, hnormal⟩ := loaded_of_run hw.loaded
  rw [run_append, hw.disk]
  exact edit_exact_iff hstored hnormal hsingle c.1 hw.edited

/-- In a sequence of calls, every file that is written is read back as it is and
follows the rules of exclusivity, exactly if every call that writes is safe. -/
theorem plans_exact_iff (host : Host) (calls : List (Call × Fault)) :
    (∀ before c value written, before ++ [c] <+: calls →
      Writes host (run host before) c value written →
      load host (run host (before ++ [c])) = .ok written ∧ Exclusive host written) ↔
    ∀ before c value written, before ++ [c] <+: calls →
      Writes host (run host before) c value written → Safe host value c.1 := by
  constructor
  · intro h before c value written hpre hw
    have hbefore : ExactRun host before := fun b c' v w hb =>
      h b c' v w (hb.trans ((List.prefix_append before [c]).trans hpre))
    exact (exact_iff_of_single hw (single_of_run hbefore hw.loaded)).mp
      (h before c value written hpre hw)
  · intro h
    have hexact : ∀ n, ∀ before c value written, before.length = n → before ++ [c] <+: calls →
        Writes host (run host before) c value written →
          Exact host (run host (before ++ [c])) written := by
      intro n
      induction n using Nat.strong_induction_on with
      | h n ih =>
        intro before c value written hn hpre hw
        have hbefore : ExactRun host before := by
          intro b c' v w hb hw'
          have hlength : b.length < n := by
            have hle := hb.length_le
            rw [List.length_append, List.length_singleton] at hle
            omega
          exact ih b.length hlength b c' v w rfl
            (hb.trans ((List.prefix_append before [c]).trans hpre)) hw'
        exact (exact_iff_of_single hw (single_of_run hbefore hw.loaded)).mpr
          (h before c value written hpre hw)
    exact fun before c value written hpre hw => hexact before.length before c value
      written rfl hpre hw

def plainHost : Host where
  cwd := none
  cwd_abs := by simp
  evalSymlinks path := .ok path
  isDir _ := .ok true

def bindByte (bucketID name : GoString) (byte : UInt8) : Call :=
  .bind
    { planName := [], bucketID := bucketID, bucketName := bucketID, branch := [],
      bindingName := name
      source := [slash, .bad byte], pathName := [], merge := false }
    (fun _ => byte) (fun _ => byte) ⟨2, two_ne_zero⟩

/-- A source that is not valid UTF-8 is read back as another path, and a second
one, in another plan, makes the store unreadable. -/
theorem invalid_sources_unreadable :
    let first := (bindByte (text "a") (text "x") 0xff, Fault.none)
    let second := (bindByte (text "b") (text "y") 0xfe, Fault.none)
    (mutate plainHost first.1 .none (run plainHost [])).2 = .ok () ∧
      (load plainHost (run plainHost [first])).map
        (fun value => ((plansOf value).flatMap Plan.bindings).map Binding.source) =
          .ok [[slash, .char (Char.ofNat 0xFFFD)]] ∧
      (mutate plainHost second.1 .none (run plainHost [first])).2 = .ok () ∧
      (load plainHost (run plainHost [first, second])).isOk = false := by
  decide +kernel

end runs

end MaltClient.BackupPlans
