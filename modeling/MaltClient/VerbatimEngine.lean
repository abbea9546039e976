import MaltClient.PlannerPrepare

/-! A model of the identifier and engine contracts in which an identifier
spells out what it identifies. -/

namespace MaltClient

open GoText Unixfs

def spellRune : Rune → GoString
  | .char c => [.char 'c', .char c]
  | .bad b => [.char 'b', .char (Char.ofNat (0x4e00 + b.toNat))]

def spellText (s : GoString) : GoString := s.flatMap spellRune ++ [.char 'e']

variable {x y s : GoString}

theorem spellRune_cancel {a b : Rune} (h : spellRune a ++ x = spellRune b ++ y) :
    a = b ∧ x = y := by
  have hcode : ∀ n < 256, (Char.ofNat (0x4e00 + n)).toNat = 0x4e00 + n := by decide +kernel
  cases a with
  | char c =>
    cases b with
    | char c' =>
      obtain ⟨rfl, rfl⟩ : c = c' ∧ x = y := by simpa [spellRune] using h
      exact ⟨rfl, rfl⟩
    | bad b' => exact absurd (Rune.char.inj (List.cons.inj h).1) (by decide)
  | bad byte =>
    cases b with
    | char c' => exact absurd (Rune.char.inj (List.cons.inj h).1) (by decide)
    | bad byte' =>
      simp only [spellRune, List.cons_append, List.nil_append, List.cons.injEq, true_and,
        Rune.char.injEq] at h
      have hb : byte.toNat = byte'.toNat := by
        have := congrArg Char.toNat h.1
        rw [hcode _ byte.toNat_lt, hcode _ byte'.toNat_lt] at this
        omega
      rw [UInt8.toNat_inj.mp hb, h.2]
      exact ⟨rfl, rfl⟩

theorem spellText_cancel {t : GoString} (h : spellText s ++ x = spellText t ++ y) :
    s = t ∧ x = y := by
  have hend (r : Rune) (z w : GoString) : spellRune r ++ z ≠ .char 'e' :: w := by
    cases r <;> exact fun he => absurd (Rune.char.inj (List.cons.inj he).1) (by decide)
  unfold spellText at h
  induction s generalizing t with
  | nil =>
    cases t with
    | nil => simpa using h
    | cons b t =>
      rw [List.flatMap_cons, List.append_assoc (spellRune b), List.append_assoc (spellRune b)] at h
      exact absurd h.symm (hend b _ _)
  | cons a s ih =>
    rw [List.flatMap_cons, List.append_assoc, List.append_assoc] at h
    cases t with
    | nil => exact absurd h (hend a _ _)
    | cons b t =>
      rw [List.flatMap_cons, List.append_assoc, List.append_assoc] at h
      obtain ⟨rfl, hrest⟩ := spellRune_cancel h
      rw [← List.append_assoc, ← List.append_assoc] at hrest
      obtain ⟨rfl, hxy⟩ := ih hrest
      exact ⟨rfl, hxy⟩

theorem spellText_injective : Function.Injective spellText := fun _ _ h =>
  (spellText_cancel (congrArg (· ++ []) h)).1

theorem validString_spellText (s : GoString) : validString (spellText s) = true := by
  have hrune (r : Rune) :
    ∀ x ∈ spellRune r, x.isValid = true := by cases r <;> simp [spellRune, Rune.isValid]
  unfold validString spellText
  simp only [List.all_append, List.all_flatMap, Bool.and_eq_true, List.all_eq_true]
  exact ⟨fun r _ => hrune r, by simp [Rune.isValid]⟩

def tagged (tag : Char) (h : isSpace (.char tag) = false) (s : GoString) :
    @Cid CidFormat.verbatim :=
  letI := CidFormat.verbatim
  { spelling := .char tag :: spellText s
    canonical := by
      have htrim : trimSpace (.char tag :: spellText s) = .char tag :: spellText s := by
        apply trimSpace_eq_self
        · simpa using h
        · intro r hr
          rw [spellText, ← List.cons_append, List.getLast?_concat, Option.mem_some_iff] at hr
          exact hr ▸ by decide
      have hvalid : validString (.char tag :: spellText s) = true := validString_spellText s
      exact if_pos ⟨List.cons_ne_nil _ _, htrim, hvalid⟩ }

theorem tagged_injective {tag tag' : Char} {h h'} {s' : GoString}
    (he : tagged tag h s = tagged tag' h' s') : tag = tag' ∧ s = s' := by
  obtain ⟨hc, hs⟩ := List.cons.inj (congrArg (@Cid.spelling CidFormat.verbatim) he)
  exact ⟨Rune.char.inj hc, spellText_injective hs⟩

@[reducible] def ManifestHash.verbatim : @ManifestHash CidFormat.verbatim :=
  letI := CidFormat.verbatim
  { manifestCid := tagged 'm' (by decide)
    isManifest := fun c => c.spelling.head? == some (.char 'm')
    sums := fun c data => c == tagged 'm' (by decide) data
    isManifest_manifestCid := fun data => rfl
    sums_manifestCid := by
      intro data data'
      rw [beq_iff_eq]
      exact ⟨fun h => (tagged_injective h).2.symm, fun h => by rw [h]⟩ }

section

variable [CidFormat]

def spellValue : Option Cid → GoString
  | none => [.char 'n']
  | some c => .char 's' :: spellText c.spelling

def spellEntries : List (Σ _ : GoString, Option Cid) → GoString
  | [] => [.char 'z']
  | e :: es => .char 'l' :: (spellText e.1 ++ (spellValue e.2 ++ spellEntries es))

theorem spellValue_cancel {v w : Option Cid} {x y : GoString}
    (h : spellValue v ++ x = spellValue w ++ y) : v = w ∧ x = y := by
  cases v with
  | none =>
    cases w with
    | none => simpa [spellValue] using h
    | some c => exact absurd (Rune.char.inj (List.cons.inj h).1) (by decide)
  | some c =>
    cases w with
    | none => exact absurd (Rune.char.inj (List.cons.inj h).1) (by decide)
    | some c' =>
      obtain ⟨hc, rfl⟩ := spellText_cancel (List.cons.inj h).2
      rw [Cid.ext hc]
      exact ⟨rfl, rfl⟩

theorem spellEntries_injective : Function.Injective spellEntries := by
  intro es es' h
  induction es generalizing es' with
  | nil =>
    cases es' with
    | nil => rfl
    | cons e' es' => exact absurd (Rune.char.inj (List.cons.inj h).1) (by decide)
  | cons e es ih =>
    cases es' with
    | nil => exact absurd (Rune.char.inj (List.cons.inj h).1) (by decide)
    | cons e' es' =>
      obtain ⟨hlabel, hvalue⟩ := spellText_cancel (List.cons.inj h).2
      obtain ⟨htarget, hrest⟩ := spellValue_cancel hvalue
      rw [ih hrest, Sigma.ext hlabel (heq_of_eq htarget)]

def sortedEntries (a : Bindings) : List (Σ _ : GoString, Option Cid) :=
  sortOn (fun e => spellText e.1) a.entries

theorem sortedEntries_perm (a : Bindings) : (sortedEntries a).Perm a.entries := sortOn_perm _ _

theorem sortedEntries_eq {a b : Bindings} (h : a.entries.Perm b.entries) :
    sortedEntries a = sortedEntries b := by
  have hnodup : (b.entries.map fun e => spellText e.1).Nodup := by
    have := b.nodupKeys.map spellText_injective
    rwa [List.keys, List.map_map] at this
  exact sortOn_eq_of_perm h.symm (fun e _ => validString_spellText e.1) hnodup

def spellState (e : Finmap fun _ : GoString => Option Cid) : GoString :=
  e.liftOn (fun a => spellEntries (sortedEntries a)) fun _ _ h => by rw [sortedEntries_eq h]

theorem spellState_injective : Function.Injective spellState := by
  intro e e' h
  induction e using Finmap.induction_on with | _ a =>
  induction e' using Finmap.induction_on with | _ b =>
  have hsorted : sortedEntries a = sortedEntries b := spellEntries_injective h
  have hperm := (sortedEntries_perm a).symm.trans (hsorted ▸ sortedEntries_perm b)
  exact AList.toFinmap_eq.mpr hperm

end

@[reducible] def Engine.verbatim : @Engine CidFormat.verbatim ManifestHash.verbatim :=
  letI := CidFormat.verbatim
  letI := ManifestHash.verbatim
  { Descriptor := Unit
    isDirectory := fun _ => true
    parseRoot := fun c => if c.spelling.head? = some (.char 'r') then some () else none
    root := fun _ e => tagged 'r' (by decide) (spellState e)
    root_injective := fun h => ⟨rfl, spellState_injective (tagged_injective h).2⟩
    not_isManifest_root := fun _ _ => rfl }

end MaltClient
