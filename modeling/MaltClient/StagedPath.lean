import MaltClient.Checked
import MaltClient.GoPath

/-! The spelling of paths that mutate a staged tree. A path is accepted only in
its lossless canonical form, so it is the same thing as the list of its names. -/

namespace MaltClient.StagedPath

open GoText Checked

inductive PathError where
  | reserved (segment : GoString)
  | invalid (format : String) (args : List GoString)
  deriving DecidableEq, Repr

def hasSuffix (s t : GoString) : Bool := t.isSuffixOf s

def isPortableSegment (segment : GoString) : Bool :=
  segment ≠ [] && segment ≠ dot && segment ≠ dotDot && validString segment &&
    segment.all fun r => r ≠ .char (Char.ofNat 0) && r ≠ slash && r ≠ .char (Char.ofNat 92)

def parsePath (path : GoString) : Except PathError (List GoString) :=
  if path = [] then return []
  else do
    reject (hasPrefix path [slash] ∨ hasSuffix path [slash])
      (.invalid "path must be relative and must not end with /" [])
    let segments := split path
    forM segments fun segment => do
      reject (hasPrefix segment (text "@")) (.reserved segment)
      reject (¬ isPortableSegment segment = true) (.invalid "%s" [segment])
    return segments

def byteOrderMark : GoString := [.char (Char.ofNat 0xFEFF)]

def canonicalStagedPath (raw : GoString) : GoString :=
  let p := (trimSpace raw).map fun r => if r = .char (Char.ofNat 92) then slash else r
  let p := clean (slash :: p)
  let p := if hasPrefix p [slash] then p.drop 1 else p
  if p = dot then [] else p

def parseCanonicalStagedPath (raw : GoString) : Except PathError (List GoString) := do
  let segments ← parsePath raw
  forM segments fun segment =>
    reject (trimSpace segment ≠ segment ∨ hasPrefix segment byteOrderMark ∨
      hasSuffix segment byteOrderMark)
      (.invalid "path segment is not losslessly canonical: %q" [segment])
  reject (join segments ≠ raw ∨ canonicalStagedPath raw ≠ raw)
    (.invalid "path is not in losslessly canonical staging form: %q" [raw])
  return segments

/-- A name that can stand in a staged path. -/
structure StagedName (s : GoString) : Prop where
  portable : isPortableSegment s = true
  unreserved : hasPrefix s (text "@") = false
  trimmed : trimSpace s = s
  unmarked : hasPrefix s byteOrderMark = false ∧ hasSuffix s byteOrderMark = false

variable {s : GoString} {ps : List GoString}

theorem isPortableSegment_iff : isPortableSegment s = true ↔ Name s ∧ validString s = true ∧
    containsRune s (Char.ofNat 0) = false ∧ containsRune s (Char.ofNat 92) = false := by
  have hc (c : Char) : containsRune s c = false ↔ ∀ r ∈ s, r ≠ .char c := by
    simp only [containsRune, List.contains_eq_mem, decide_eq_false_iff_not]
    exact ⟨fun h r hr he => h (he ▸ hr), fun h hm => h _ hm rfl⟩
  have hs : slash ∉ s ↔ ∀ r ∈ s, r ≠ slash := ⟨fun h r hr he => h (he ▸ hr), fun h hm => h _ hm rfl⟩
  simp only [isPortableSegment, Bool.and_eq_true, decide_eq_true_eq, List.all_eq_true, hc,
    Name, Plain, hs, ne_eq]
  constructor
  · rintro ⟨⟨⟨⟨h1, h2⟩, h3⟩, h4⟩, h5⟩
    exact ⟨⟨⟨h1, fun r hr => (h5 r hr).1.2⟩, h2, h3⟩, h4, fun r hr => (h5 r hr).1.1,
      fun r hr => (h5 r hr).2⟩
  · rintro ⟨⟨⟨h1, h5⟩, h2, h3⟩, h4, h6, h7⟩
    exact ⟨⟨⟨⟨h1, h2⟩, h3⟩, h4⟩, fun r hr => ⟨⟨h6 r hr, h5 r hr⟩, h7 r hr⟩⟩

/-- A name that `parsePath` accepts. -/
structure PathName (s : GoString) : Prop where
  portable : isPortableSegment s = true
  unreserved : hasPrefix s (text "@") = false

theorem PathName.name (h : PathName s) : Name s := (isPortableSegment_iff.mp h.portable).1

theorem StagedName.pathName (h : StagedName s) : PathName s := ⟨h.portable, h.unreserved⟩

theorem StagedName.name (h : StagedName s) : Name s := (isPortableSegment_iff.mp h.portable).1

theorem StagedName.plain (h : StagedName s) : Plain s := h.name.plain

theorem map_backslash_join (h : ∀ p ∈ ps, StagedName p) :
    (join ps).map (fun r => if r = .char (Char.ofNat 92) then slash else r) = join ps := by
  have hnone : ∀ r ∈ join ps, r ≠ .char (Char.ofNat 92) := by
    induction ps with
    | nil => simp [join]
    | cons p ps ih =>
      have hp : ∀ r ∈ p, r ≠ .char (Char.ofNat 92) := fun r hr he => by
        have hb := (isPortableSegment_iff.mp (h p (by simp)).portable).2.2.2
        simp only [containsRune, List.contains_eq_mem, decide_eq_false_iff_not] at hb
        exact hb (he ▸ hr)
      intro r hr
      by_cases hps : ps = []
      · subst hps
        exact hp r hr
      · rw [join_cons_of_ne_nil hps, List.mem_append, List.mem_cons] at hr
        rcases hr with hr | rfl | hr
        · exact hp r hr
        · decide
        · exact ih (fun q hq => h q (by simp [hq])) r hr
  refine (List.map_congr_left fun r hr => ?_).trans (List.map_id _)
  rw [if_neg (hnone r hr)]
  rfl

theorem canonicalStagedPath_join (h : ∀ p ∈ ps, StagedName p) :
    canonicalStagedPath (join ps) = join ps := by
  have htrim : trimSpace (join ps) = join ps :=
    trimSpace_join fun p hp => ⟨(h p hp).plain.1, (h p hp).trimmed⟩
  have hclean : clean (slash :: join ps) = slash :: join ps :=
    clean_slash_join fun p hp => (h p hp).name
  have hdot : join ps ≠ dot := by
    intro he
    have hsplit : split dot = [dot] := by decide
    cases ps with
    | nil => simp [join, dot, text] at he
    | cons p qs =>
      have hd : split (join (p :: qs)) = p :: qs :=
        split_join (by simp) fun q hq => (h q hq).plain.2
      rw [he, hsplit] at hd
      exact (h p (by simp)).name.2.1 (List.cons.inj hd).1.symm
  simp only [canonicalStagedPath, htrim, map_backslash_join h, hclean, hasPrefix, List.isPrefixOf,
    beq_self_eq_true, Bool.and_self, if_true, List.drop_succ_cons, List.drop_zero, if_neg hdot]

theorem staged_of_parse {raw : GoString} {segments : List GoString}
    (h : parseCanonicalStagedPath raw = .ok segments) :
    raw = join segments ∧ ∀ s ∈ segments, StagedName s := by
  simp only [parseCanonicalStagedPath, ok_iff, forM_eq_ok, not_or, not_not] at h
  obtain ⟨segs, hparse, -, hlossless, -, ⟨hjoin, -⟩, rfl⟩ := h
  refine ⟨hjoin.symm, fun s hs => ?_⟩
  unfold parsePath at hparse
  split_ifs at hparse with hnil
  · cases hparse
    simp at hs
  · simp only [ok_iff, forM_eq_ok, not_not] at hparse
    obtain ⟨-, -, -, hall, rfl⟩ := hparse
    obtain ⟨-, hat, hport⟩ := hall s hs
    obtain ⟨htrim, hpre, hsuf⟩ := hlossless s hs
    exact ⟨hport, by simpa using hat, htrim, by simpa using hpre, by simpa using hsuf⟩

theorem parsePath_join (h : ∀ p ∈ ps, PathName p) : parsePath (join ps) = .ok ps := by
  unfold parsePath
  by_cases hps : ps = []
  · subst hps
    rfl
  have hplain : ∀ p ∈ ps, Plain p := fun p hp => (h p hp).name.plain
  rw [if_neg (join_ne_nil hps hplain)]
  simp only [ok_iff, forM_eq_ok, not_or, not_not, split_join hps fun p hp => (hplain p hp).2]
  refine ⟨(), ⟨?_, ?_⟩, ⟨⟩, fun p hp => ⟨(), by simpa using (h p hp).unreserved, (h p hp).portable⟩,
    trivial⟩
  · intro hpre
    obtain ⟨t, ht⟩ := hasPrefix_iff.mp hpre
    exact head?_join_ne_slash hplain (by rw [← ht]; rfl)
  · intro hsuf
    obtain ⟨t, ht⟩ := List.isSuffixOf_iff_suffix.mp hsuf
    obtain ⟨rs, r, hr⟩ := (List.eq_nil_or_concat' ps).resolve_left hps
    have hm := hplain r (by rw [hr]; simp)
    have hl : (join ps).getLast? = some slash := by rw [← ht]; simp
    rw [hr, getLast?_join hm.1] at hl
    exact hm.2 (List.mem_of_getLast? hl)

theorem parse_join (h : ∀ p ∈ ps, StagedName p) :
    parseCanonicalStagedPath (join ps) = .ok ps := by
  have hparse : parsePath (join ps) = .ok ps := parsePath_join fun p hp => (h p hp).pathName
  simp only [parseCanonicalStagedPath, ok_iff, forM_eq_ok, not_or, not_not]
  exact ⟨ps, hparse, ⟨⟩, fun p hp => ⟨(h p hp).trimmed, by simpa using (h p hp).unmarked.1,
    by simpa using (h p hp).unmarked.2⟩, (), ⟨rfl, canonicalStagedPath_join h⟩, rfl⟩

end MaltClient.StagedPath
