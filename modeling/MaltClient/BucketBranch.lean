import MaltClient.Checked
import MaltClient.GoPath

/-! Branch selectors of a Bucket, as the client normalises them. -/

namespace MaltClient.BucketBranch

open GoText Checked

/-- The text after `invalid Bucket branch`. -/
structure BranchError where
  raw : GoString
  deriving DecidableEq, Repr

def trimPrefix (s p : GoString) : GoString := if hasPrefix s p then s.drop p.length else s

def mainBranch : GoString := text "main"

def headsPrefix : GoString := text "heads/"

def validRune : Rune → Bool
  | .char c =>
    ('a' ≤ c && c ≤ 'z') || ('A' ≤ c && c ≤ 'Z') || ('0' ≤ c && c ≤ '9') || c == '-' ||
      c == '_' || c == '.'
  | .bad _ => false

def validIdentifier (value : GoString) : Bool :=
  !value.isEmpty && decide ((bytes value).length ≤ 128) && value.all validRune

def normalizeExplicit (raw : GoString) : Except BranchError GoString := do
  let raw := trimPrefix (trimSpace raw) headsPrefix
  reject (raw = [] ∨ raw = mainBranch ∨ hasPrefix raw (text "conflicts/") ∨
    128 < (bytes raw).length ∨ hasPrefix raw [slash] ∨ [slash] <:+ raw ∨ dotDot <:+: raw) ⟨raw⟩
  forM (split raw) fun segment => reject (validIdentifier segment = false) ⟨raw⟩
  return if hasPrefix raw headsPrefix then headsPrefix ++ raw else raw

def normalizeSelector (raw : GoString) : Except BranchError GoString :=
  if trimSpace raw = [] ∨ trimSpace raw = mainBranch then return mainBranch
  else normalizeExplicit (trimSpace raw)

def refName (raw : GoString) : Except BranchError GoString := do
  let selector ← normalizeSelector raw
  return if selector = mainBranch then selector else headsPrefix ++ trimPrefix selector headsPrefix

/-- A name that may follow `heads/`. -/
structure BranchName (name : GoString) : Prop where
  nonempty : name ≠ []
  notMain : name ≠ mainBranch
  notConflict : hasPrefix name (text "conflicts/") = false
  length : (bytes name).length ≤ 128
  head : hasPrefix name [slash] = false
  last : ¬ [slash] <:+ name
  noDots : ¬ dotDot <:+: name
  segments : ∀ s ∈ split name, validIdentifier s = true

/-- The selector of a branch name. -/
def selectorOf (name : GoString) : GoString :=
  if hasPrefix name headsPrefix then headsPrefix ++ name else name

variable {raw b name : GoString}

theorem normalizeExplicit_eq_ok : normalizeExplicit raw = .ok b ↔
    BranchName (trimPrefix (trimSpace raw) headsPrefix) ∧
      selectorOf (trimPrefix (trimSpace raw) headsPrefix) = b := by
  simp only [normalizeExplicit, ok_iff, forM_eq_ok, not_or, not_lt, Bool.not_eq_true,
    Bool.not_eq_false, exists_const]
  constructor
  · intro h
    obtain ⟨⟨h1, h2, h3, h4, h5, h6, h7⟩, hs, rfl⟩ := h
    exact ⟨⟨h1, h2, h3, h4, h5, h6, h7, hs⟩, rfl⟩
  · intro h
    obtain ⟨hn, rfl⟩ := h
    exact ⟨⟨hn.nonempty, hn.notMain, hn.notConflict, hn.length, hn.head, hn.last, hn.noDots⟩,
      hn.segments, rfl⟩

theorem trimPrefix_selectorOf (name : GoString) :
    trimPrefix (selectorOf name) headsPrefix = name := by
  unfold selectorOf
  split_ifs with h
  · rw [trimPrefix, hasPrefix_self_append, if_pos rfl, List.drop_left]
  · rw [trimPrefix, if_neg h]

theorem not_isSpace_of_validRune {r : Rune} (h : validRune r = true) : isSpace r = false := by
  cases r with
  | bad b => rfl
  | char c =>
    have hcode : 45 ≤ c.toNat ∧ c.toNat < 128 := by
      simp only [validRune, Bool.or_eq_true, Bool.and_eq_true, decide_eq_true_eq,
        beq_iff_eq, Char.le_def, UInt32.le_iff_toNat_le] at h
      rcases h with ((((h | h) | h) | rfl) | rfl) | rfl
      case inr | inl.inr | inl.inl.inr => decide
      all_goals
        have hlow : 48 ≤ c.toNat := le_trans (by decide) h.1
        have hhigh : c.toNat ≤ 122 := le_trans h.2 (by decide)
        omega
    simp only [isSpace, Bool.or_eq_false_iff, Bool.and_eq_false_iff, decide_eq_false_iff_not,
      beq_eq_false_iff_ne]
    omega

theorem BranchName.not_isSpace (h : BranchName name) : ∀ r ∈ name, isSpace r = false := by
  intro r hr
  rw [← join_split name] at hr
  rcases mem_join hr with rfl | ⟨s, hs, hrs⟩
  · decide
  · have hvalid := h.segments s hs
    simp only [validIdentifier, Bool.and_eq_true, List.all_eq_true] at hvalid
    exact not_isSpace_of_validRune (hvalid.2 r hrs)

theorem BranchName.trimSpace_selectorOf (h : BranchName name) :
    trimSpace (selectorOf name) = selectorOf name := by
  have hall : ∀ r ∈ selectorOf name, isSpace r = false := by
    unfold selectorOf
    split_ifs with hp
    · intro r hr
      rcases List.mem_append.mp hr with hr | hr
      · exact (by decide : ∀ r ∈ headsPrefix, isSpace r = false) r hr
      · exact h.not_isSpace r hr
    · exact h.not_isSpace
  exact trimSpace_eq_self (fun r hr => hall r (List.mem_of_mem_head? hr)) fun r hr =>
    hall r (List.mem_of_mem_getLast? hr)

theorem BranchName.selectorOf_ne (h : BranchName name) :
    selectorOf name ≠ [] ∧ selectorOf name ≠ mainBranch := by
  unfold selectorOf
  split_ifs with hp
  · exact ⟨by simp [headsPrefix, text], fun he => by simp [headsPrefix, mainBranch, text] at he⟩
  · exact ⟨h.nonempty, h.notMain⟩

theorem normalizeSelector_selectorOf (h : BranchName name) :
    normalizeSelector (selectorOf name) = .ok (selectorOf name) := by
  obtain ⟨hne, hmain⟩ := h.selectorOf_ne
  rw [normalizeSelector, h.trimSpace_selectorOf, if_neg (by simp [hne, hmain]),
    normalizeExplicit_eq_ok, h.trimSpace_selectorOf, trimPrefix_selectorOf]
  exact ⟨h, rfl⟩

theorem normalizeSelector_cases (h : normalizeSelector raw = .ok b) :
    b = mainBranch ∨ ∃ name, BranchName name ∧ b = selectorOf name := by
  unfold normalizeSelector at h
  split_ifs at h
  · exact .inl (pure_eq_ok.mp h).symm
  · obtain ⟨hname, hb⟩ := normalizeExplicit_eq_ok.mp h
    exact .inr ⟨_, hname, hb.symm⟩

theorem normalizeSelector_idem (h : normalizeSelector raw = .ok b) :
    normalizeSelector b = .ok b := by
  rcases normalizeSelector_cases h with rfl | ⟨name, hname, rfl⟩
  · rfl
  · exact normalizeSelector_selectorOf hname

end MaltClient.BucketBranch
