import MaltClient.GoText

/-! Content identifiers as the client handles them. The identifier library is
a parameter: it reads a spelling and prints the canonical one. -/

namespace MaltClient

open GoText

/-- `cid.Parse` followed by `String`: canonical spellings are printable text
without surrounding space, and parse to themselves. -/
class CidFormat where
  canonical : GoString → Option GoString
  canonical_idem : ∀ {s t}, canonical s = some t → canonical t = some t
  canonical_trimmed : ∀ {s t}, canonical s = some t → trimSpace t = t
  canonical_valid : ∀ {s t}, canonical s = some t → validString t = true
  canonical_ne_nil : ∀ {s t}, canonical s = some t → t ≠ []

/-- A content identifier, held by its canonical spelling. -/
@[ext] structure Cid [CidFormat] where
  spelling : GoString
  canonical : CidFormat.canonical spelling = some spelling
  deriving DecidableEq

namespace Cid

variable [CidFormat]

def parse (s : GoString) : Option Cid :=
  match h : CidFormat.canonical s with
  | none => none
  | some t => some ⟨t, CidFormat.canonical_idem h⟩

theorem parse_spelling (c : Cid) : parse c.spelling = some c := by
  obtain ⟨t, ht⟩ := c
  unfold parse
  split
  · rename_i h
    simp [ht] at h
  · rename_i u h
    have hu : u = t := by simpa [ht] using h.symm
    subst hu
    rfl

end Cid

/-- Payload identifiers: the raw codec, the identifier of a body, and the check
of a body against an identifier with that identifier's own hash function. -/
class PayloadHash [CidFormat] where
  isRaw : Cid → Bool
  rawCid : List UInt8 → Cid
  sums : Cid → List UInt8 → Bool
  isRaw_rawCid : ∀ body, isRaw (rawCid body) = true
  sums_rawCid : ∀ body, sums (rawCid body) body = true

export PayloadHash (rawCid)

/-- The format in which every non-empty trimmed text is its own canonical
spelling. -/
@[reducible] def CidFormat.verbatim : CidFormat where
  canonical s := if s ≠ [] ∧ trimSpace s = s ∧ validString s = true then some s else none
  canonical_idem h := by
    split_ifs at h with hs
    cases h
    simp [hs]
  canonical_trimmed h := by
    split_ifs at h with hs
    cases h
    exact hs.2.1
  canonical_valid h := by
    split_ifs at h with hs
    cases h
    exact hs.2.2
  canonical_ne_nil h := by
    split_ifs at h with hs
    cases h
    exact hs.1

/-- The identifier that spells a body out, one letter for each byte. -/
def spellBody (body : List UInt8) : GoString :=
  .char (Char.ofNat 98) :: body.map fun b => .char (Char.ofNat (0x4e00 + b.toNat))

theorem spellBody_canonical (body : List UInt8) :
    spellBody body ≠ [] ∧ trimSpace (spellBody body) = spellBody body ∧
      validString (spellBody body) = true := by
  have hbyte : ∀ n < 256, isSpace (.char (Char.ofNat (0x4e00 + n))) = false := by decide +kernel
  have hall : ∀ r ∈ spellBody body, isSpace r = false ∧ r.isValid = true := by
    intro r hr
    rcases List.mem_cons.mp hr with rfl | hr
    · decide
    · obtain ⟨b, -, rfl⟩ := List.mem_map.mp hr
      exact ⟨hbyte b.toNat b.toNat_lt, rfl⟩
  exact ⟨List.cons_ne_nil _ _, trimSpace_eq_self (fun r hr => (hall r (List.mem_of_mem_head? hr)).1)
    fun r hr => (hall r (List.mem_of_mem_getLast? hr)).1, List.all_eq_true.mpr fun r hr =>
      (hall r hr).2⟩

@[reducible] def PayloadHash.verbatim : @PayloadHash CidFormat.verbatim :=
  letI := CidFormat.verbatim
  { isRaw := fun _ => true
    rawCid := fun body => ⟨spellBody body, if_pos (spellBody_canonical body)⟩
    sums := fun c body => c.spelling = spellBody body
    isRaw_rawCid := fun _ => rfl
    sums_rawCid := fun _ => decide_eq_true rfl }

end MaltClient
