import MaltClient.StagedPath

/-! Directory manifests: the names and types of a directory's children, in the
order of the names, and their one encoding as text. -/

namespace MaltClient.DirectoryManifest

open GoText Checked StagedPath

inductive EntryType where
  | dir
  | file
  | other (spelling : GoString)
  deriving DecidableEq, Repr

def EntryType.spelling : EntryType → GoString
  | .dir => text "dir"
  | .file => text "file"
  | .other s => s

structure DirectoryEntry where
  name : GoString
  type : EntryType
  deriving DecidableEq, Repr

inductive ManifestError where
  | invalid (format : String) (args : List GoString)
  | entry (index : Nat) (cause : ManifestError)
  deriving Repr

def validateImmediateChildName (name : GoString) : Except ManifestError Unit := do
  reject (name = []) (.invalid "empty child name" [])
  reject (¬ validString name = true) (.invalid "child name is not valid UTF-8" [])
  reject (name = dot ∨ name = dotDot) (.invalid "child name must not be a dot segment: %q" [name])
  reject (containsRune name (Char.ofNat 0) = true) (.invalid "child name must not contain NUL" [])
  reject (slash ∈ name) (.invalid "immediate child name must not contain '/': %q" [name])
  reject (containsRune name (Char.ofNat 92) = true)
    (.invalid "immediate child name must not contain '\\': %q" [name])

/-- Check the entries that follow `previous`, if there is one. -/
def validateEntries : Nat → Option GoString → List DirectoryEntry → Except ManifestError Unit
  | _, _, [] => return ()
  | index, previous, entry :: entries => do
    (validateImmediateChildName entry.name).mapError (.entry index)
    reject (entry.type ≠ .dir ∧ entry.type ≠ .file)
      (.entry index (.invalid "unsupported type %q" [entry.type.spelling]))
    reject (previous = some entry.name) (.invalid "duplicate entry %q" [entry.name])
    reject (∃ p ∈ previous, leBytes (bytes entry.name) (bytes p) = true)
      (.invalid "entries must be sorted by UTF-8 bytes" [])
    validateEntries (index + 1) (some entry.name) entries

def validateDirectoryManifest (entries : List DirectoryEntry) : Except ManifestError Unit :=
  validateEntries 0 none entries

def normalizeDirectoryEntries (entries : List DirectoryEntry) :
    Except ManifestError (List DirectoryEntry) := do
  let normalized := sortOn DirectoryEntry.name entries
  validateDirectoryManifest normalized
  return normalized

def hexDigit (n : Nat) : Rune := .char (Nat.digitChar n)

def backslash : Rune := .char (Char.ofNat 92)

def quote : Rune := .char (Char.ofNat 34)

/-- The locked spelling of one character inside a JSON string. -/
def escape : Rune → GoString
  | .bad _ => [.char (Char.ofNat 0xFFFD)]
  | .char c =>
    match c.toNat with
    | 34 => [backslash, quote]
    | 92 => [backslash, backslash]
    | 8 => backslash :: text "b"
    | 12 => backslash :: text "f"
    | 10 => backslash :: text "n"
    | 13 => backslash :: text "r"
    | 9 => backslash :: text "t"
    | n => if n < 0x20 then backslash :: text "u00" ++ [hexDigit (n / 16),
      hexDigit (n % 16)] else [.char c]

def appendJSONString (value : GoString) : GoString := quote :: value.flatMap escape ++ [quote]

def writeEntry (entry : DirectoryEntry) : GoString :=
  text "\x7b\"name\":" ++ (appendJSONString entry.name ++ (text ",\"type\":" ++
    (appendJSONString entry.type.spelling ++ text "\x7d")))

/-- The entries after the first, each with its comma, and the closing brackets. -/
def writeRest : List DirectoryEntry → GoString
  | [] => text "]\x7d"
  | entry :: entries => text "," ++ (writeEntry entry ++ writeRest entries)

def writeEntries (entries : List DirectoryEntry) : GoString :=
  text "\x7b\"entries\":[" ++
    match entries with
    | [] => writeRest []
    | entry :: entries => writeEntry entry ++ writeRest entries

def marshalDirectoryEntries (entries : List DirectoryEntry) : Except ManifestError GoString := do
  let normalized ← normalizeDirectoryEntries entries
  return writeEntries normalized

/-- `encoding/json`, reading a document of the manifest's shape. -/
class JsonDecoder where
  entries : GoString → Option (List DirectoryEntry)

def parseDirectoryJSON [JsonDecoder] (data : GoString) :
    Except ManifestError (List DirectoryEntry) := do
  reject (¬ validString data = true) (.invalid "manifest is not UTF-8" [])
  let entries ← required (.invalid "entries[%d]: name and type are required" [])
    (JsonDecoder.entries data)
  validateDirectoryManifest entries
  let canonical ← marshalDirectoryEntries entries
  reject (data ≠ canonical) (.invalid "V2 manifest bytes are not canonical" [])
  return entries

variable {u : Unit} {name x y : GoString} {entries es fs : List DirectoryEntry} {r : Rune}

theorem validateImmediateChildName_eq_ok :
    validateImmediateChildName name = .ok u ↔ isPortableSegment name = true := by
  rw [isPortableSegment_iff]
  simp only [validateImmediateChildName, ok_iff, not_not, exists_const, not_or, Name,
    Plain, ← Bool.not_eq_true]
  constructor
  · intro h
    obtain ⟨h1, h2, h3, h4, h5, h6⟩ := h
    exact ⟨⟨⟨h1, h5⟩, h3.1, h3.2⟩, h2, h4, h6⟩
  · intro h
    obtain ⟨⟨⟨h1, h5⟩, h3⟩, h2, h4, h6⟩ := h
    exact ⟨h1, h2, h3, h4, h5, h6⟩

/-- What a valid manifest lists. -/
structure WellFormed (entries : List DirectoryEntry) : Prop where
  portable : ∀ e ∈ entries, isPortableSegment e.name = true
  typed : ∀ e ∈ entries, e.type = .dir ∨ e.type = .file
  sorted : entries.Pairwise fun a b => leBytes (bytes b.name) (bytes a.name) = false

theorem leBytes_strict_trans {s t u : List Nat} (h : leBytes t s = false)
    (h' : leBytes u t = false) : leBytes u s = false := by
  by_contra hus
  have hst : leBytes s t = true := (leBytes_total s t).resolve_right (by simp [h])
  have hut : leBytes u t = true := leBytes_trans (by simpa using hus) hst
  simp [hut] at h'

theorem leBytes_refl (s : List Nat) : leBytes s s = true := (leBytes_total s s).elim id id

theorem validateEntries_eq_ok {index : Nat} {previous : Option GoString}
    : validateEntries index previous entries = .ok u ↔ WellFormed entries ∧
      ∀ p ∈ previous, ∀ e ∈ entries, leBytes (bytes e.name) (bytes p) = false := by
  induction entries generalizing index previous with
  | nil =>
    simp only [validateEntries, pure_eq_ok, List.not_mem_nil, false_implies, implies_true,
      and_true, true_iff]
    exact ⟨by simp, by simp, .nil⟩
  | cons entry entries ih =>
    simp only [validateEntries, ok_iff, validateImmediateChildName_eq_ok, exists_const, ih,
      not_and_or, not_not, not_exists]
    constructor
    · intro h
      obtain ⟨hname, htype, _, hprev, hwell, hnext⟩ := h
      have hnext' := hnext entry.name rfl
      refine ⟨⟨?_, ?_, ?_⟩, fun p hp => ?_⟩
      · simpa using ⟨hname, hwell.portable⟩
      · simpa using ⟨htype, hwell.typed⟩
      · exact List.pairwise_cons.mpr ⟨hnext', hwell.sorted⟩
      · have hp' : leBytes (bytes entry.name) (bytes p) = false := by
          simpa using (hprev p).resolve_left (not_not.mpr hp)
        simpa using ⟨hp', fun e he => leBytes_strict_trans hp' (hnext' e he)⟩
    · intro h
      obtain ⟨hwell, hprev⟩ := h
      have hsorted := List.pairwise_cons.mp hwell.sorted
      refine ⟨hwell.portable entry (by simp), hwell.typed entry (by simp),
        fun he => ?_, fun p => ?_,
        ⟨fun e he => hwell.portable e (by simp [he]), fun e he => hwell.typed e (by simp [he]),
          hsorted.2⟩, ?_⟩
      · have := hprev entry.name he entry (by simp)
        simp [leBytes_refl] at this
      · by_cases hp : p ∈ previous
        · exact .inr (by simp [hprev p hp entry (by simp)])
        · exact .inl hp
      · intro p hp e he
        obtain rfl := Option.mem_some_iff.mp hp
        exact hsorted.1 e he

theorem validateDirectoryManifest_eq_ok :
    validateDirectoryManifest entries = .ok u ↔ WellFormed entries := by
  simp [validateDirectoryManifest, validateEntries_eq_ok]

theorem WellFormed.nodup (h : WellFormed entries) :
    (entries.map DirectoryEntry.name).Nodup := by
  refine List.pairwise_map.mpr (h.sorted.imp fun {a b} hab he => ?_)
  rw [he, leBytes_refl] at hab
  cases hab

theorem validString_of_portable (h : isPortableSegment name = true) :
    validString name = true := (isPortableSegment_iff.mp h).2.1

theorem WellFormed.sortOn_eq (h : WellFormed entries) :
    sortOn DirectoryEntry.name entries = entries :=
  (eq_sortOn_of_perm (List.Perm.refl entries)
    (h.sorted.imp fun {a b} hab => (leBytes_total _ _).resolve_right (by simp [hab]))
    (fun e he => validString_of_portable (h.portable e he)) h.nodup).symm

theorem wellFormed_sortOn (hnodup : (entries.map DirectoryEntry.name).Nodup)
    (hportable : ∀ e ∈ entries, isPortableSegment e.name = true)
    (htyped : ∀ e ∈ entries, e.type = .dir ∨ e.type = .file) :
    WellFormed (sortOn DirectoryEntry.name entries) := by
  have hmem {e : DirectoryEntry} (he : e ∈ sortOn DirectoryEntry.name entries) : e ∈ entries :=
    (sortOn_perm DirectoryEntry.name entries).subset he
  have hnodup' : ((sortOn DirectoryEntry.name entries).map DirectoryEntry.name).Nodup :=
    ((sortOn_perm DirectoryEntry.name entries).map _).nodup_iff.mpr hnodup
  refine ⟨fun e he => hportable e (hmem he), fun e he => htyped e (hmem he), ?_⟩
  have hboth := (sortOn_pairwise DirectoryEntry.name entries).and (List.pairwise_map.mp hnodup')
  refine hboth.imp_of_mem fun {a b} ha hb hab => ?_
  by_contra hba
  have hvalid {e : DirectoryEntry} (he : e ∈ sortOn DirectoryEntry.name entries) :=
    validString_of_portable (hportable e (hmem he))
  exact hab.2 (bytes_injective (hvalid ha) (hvalid hb)
    (leBytes_antisymm hab.1 (by simpa using hba)))

theorem marshalDirectoryEntries_eq_ok (hnodup : (entries.map DirectoryEntry.name).Nodup)
    (hportable : ∀ e ∈ entries, isPortableSegment e.name = true)
    (htyped : ∀ e ∈ entries, e.type = .dir ∨ e.type = .file) :
    marshalDirectoryEntries entries = .ok (writeEntries (sortOn DirectoryEntry.name entries)) := by
  simp only [marshalDirectoryEntries, normalizeDirectoryEntries, ok_iff,
    validateDirectoryManifest_eq_ok]
  exact ⟨_, ⟨(), wellFormed_sortOn hnodup hportable htyped, rfl⟩, rfl⟩

/-- A character that the encoder does not write as itself. -/
def Special (n : Nat) : Prop := n < 32 ∨ n = 34 ∨ n = 92

instance (n : Nat) : Decidable (Special n) := inferInstanceAs (Decidable (_ ∨ _))

theorem Special.lt {n : Nat} (h : Special n) : n < 93 := by
  unfold Special at h
  omega

theorem escape_plain {c : Char} (h : ¬ Special c.toNat) : escape (.char c) = [.char c] := by
  simp only [Special, not_or, not_lt] at h
  simp only [escape]
  split
  all_goals first | omega | rw [if_neg (by omega)]

theorem head_escape_special :
    ∀ n < 93, Special n → (escape (.char (Char.ofNat n))).head? = some backslash := by
  decide +kernel

theorem escape_special_prefix_free : ∀ m < 93, Special m → ∀ n < 93, Special n →
    (escape (.char (Char.ofNat m))).isPrefixOf (escape (.char (Char.ofNat n))) = true → m = n := by
  decide +kernel

theorem head_escape (hr : r.isValid = true) :
    (escape r).head? = some backslash ∨ (escape r = [r] ∧ r ≠ backslash ∧ r ≠ quote) := by
  cases r with
  | bad b => simp [Rune.isValid] at hr
  | char c =>
    by_cases hc : Special c.toNat
    · exact .inl (by simpa using head_escape_special c.toNat hc.lt hc)
    · refine .inr ⟨escape_plain hc, ?_, ?_⟩
      · intro he
        exact hc (by rw [Rune.char.inj he]; decide)
      · intro he
        exact hc (by rw [Rune.char.inj he]; decide)

theorem head_escape_ne_quote (hr : r.isValid = true) (x y : GoString) :
    escape r ++ x ≠ quote :: y := by
  intro he
  rcases head_escape hr with h | ⟨h, -, hq⟩
  · obtain ⟨t, ht⟩ := List.head?_eq_some_iff.mp h
    rw [ht, List.cons_append] at he
    exact absurd (List.cons.inj he).1 (by decide)
  · rw [h] at he
    exact hq (List.cons.inj he).1

theorem escape_prefix_free {a b : Rune} (ha : a.isValid = true) (hb : b.isValid = true)
    (h : escape a <+: escape b) : a = b := by
  rcases head_escape ha with hsa | ⟨hpa, hna, -⟩ <;> rcases head_escape hb with hsb | ⟨hpb, hnb, -⟩
  · cases a with
    | bad c => simp [Rune.isValid] at ha
    | char c =>
      cases b with
      | bad d => simp [Rune.isValid] at hb
      | char d =>
        have hc : Special c.toNat := by
          by_contra hc
          rw [escape_plain hc, List.head?_cons, Option.some.injEq] at hsa
          exact hc (by rw [Rune.char.inj hsa]; decide)
        have hd : Special d.toNat := by
          by_contra hd
          rw [escape_plain hd, List.head?_cons, Option.some.injEq] at hsb
          exact hd (by rw [Rune.char.inj hsb]; decide)
        have hcd := escape_special_prefix_free c.toNat hc.lt hc d.toNat hd.lt hd (by simpa using h)
        rw [Char.toNat_inj.mp hcd]
  · obtain ⟨t, ht⟩ := List.head?_eq_some_iff.mp hsa
    rw [ht, hpb, List.cons_prefix_cons] at h
    exact absurd h.1.symm hnb
  · obtain ⟨t, ht⟩ := List.head?_eq_some_iff.mp hsb
    rw [ht, hpa, List.cons_prefix_cons] at h
    exact absurd h.1 hna
  · rw [hpa, hpb, List.cons_prefix_cons] at h
    exact h.1

theorem escape_cancel {a b : Rune} (ha : a.isValid = true) (hb : b.isValid = true)
    (h : escape a ++ x = escape b ++ y) : a = b ∧ x = y := by
  have hab : a = b := by
    have hpre : escape a <+: escape b ++ y := ⟨x, h⟩
    rcases List.prefix_or_prefix_of_prefix hpre (List.prefix_append _ y) with hp | hp
    · exact escape_prefix_free ha hb hp
    · exact (escape_prefix_free hb ha hp).symm
  subst hab
  exact ⟨rfl, List.append_cancel_left h⟩

theorem appendJSONString_cancel {s t : GoString} (hs : validString s = true)
    (ht : validString t = true)
    (h : appendJSONString s ++ x = appendJSONString t ++ y) : s = t ∧ x = y := by
  simp only [appendJSONString, List.cons_append, List.append_assoc, List.cons.injEq, true_and] at h
  induction s generalizing t with
  | nil =>
    cases t with
    | nil => simpa using h
    | cons b t =>
      simp only [validString, List.all_cons, Bool.and_eq_true] at ht
      rw [List.flatMap_cons, List.append_assoc] at h
      exact absurd h.symm (head_escape_ne_quote ht.1 _ _)
  | cons a s ih =>
    simp only [validString, List.all_cons, Bool.and_eq_true] at hs
    rw [List.flatMap_cons, List.append_assoc] at h
    cases t with
    | nil => exact absurd h (head_escape_ne_quote hs.1 _ _)
    | cons b t =>
      simp only [validString, List.all_cons, Bool.and_eq_true] at ht
      rw [List.flatMap_cons, List.append_assoc] at h
      obtain ⟨rfl, hrest⟩ := escape_cancel hs.1 ht.1 h
      obtain ⟨rfl, hxy⟩ := ih hs.2 ht.2 hrest
      exact ⟨rfl, hxy⟩

theorem EntryType.spelling_injective {a b : EntryType} (ha : a = .dir ∨ a = .file)
    (hb : b = .dir ∨ b = .file) (h : a.spelling = b.spelling) : a = b := by
  rcases ha with rfl | rfl <;> rcases hb with rfl | rfl <;> first | rfl | exact absurd h (by decide)

theorem writeEntry_cancel {a b : DirectoryEntry} (ha : WellFormed [a]) (hb : WellFormed [b])
    (h : writeEntry a ++ x = writeEntry b ++ y) : a = b ∧ x = y := by
  have hvalid {e : DirectoryEntry} (he : WellFormed [e]) :
      validString e.name = true ∧ validString e.type.spelling = true := by
    refine ⟨validString_of_portable (he.portable e (by simp)), ?_⟩
    rcases he.typed e (by simp) with ht | ht <;> rw [ht] <;> decide
  simp only [writeEntry, List.append_assoc] at h
  obtain ⟨hname, h⟩ := appendJSONString_cancel (hvalid ha).1 (hvalid hb).1
    (List.append_cancel_left h)
  obtain ⟨htype, h⟩ := appendJSONString_cancel (hvalid ha).2 (hvalid hb).2
    (List.append_cancel_left h)
  have htype' := EntryType.spelling_injective (ha.typed a (by simp)) (hb.typed b (by simp)) htype
  refine ⟨?_, List.append_cancel_left h⟩
  cases a
  cases b
  exact congrArg₂ DirectoryEntry.mk hname htype'

theorem WellFormed.uncons {e : DirectoryEntry} (h : WellFormed (e :: es)) :
    WellFormed [e] ∧ WellFormed es :=
  ⟨⟨fun a ha => h.portable a (by simp_all), fun a ha => h.typed a (by simp_all),
    List.pairwise_singleton _ _⟩,
    fun a ha => h.portable a (by simp [ha]), fun a ha => h.typed a (by simp [ha]),
    (List.pairwise_cons.mp h.sorted).2⟩

theorem writeRest_injective (hes : WellFormed es) (hfs : WellFormed fs)
    (h : writeRest es = writeRest fs) : es = fs := by
  induction es generalizing fs with
  | nil =>
    cases fs with
    | nil => rfl
    | cons f fs => exact absurd (List.cons.inj h).1 (by decide)
  | cons e es ih =>
    cases fs with
    | nil => exact absurd (List.cons.inj h).1 (by decide)
    | cons f fs =>
      obtain ⟨rfl, hrest⟩ := writeEntry_cancel hes.uncons.1 hfs.uncons.1 (List.append_cancel_left h)
      rw [ih hes.uncons.2 hfs.uncons.2 hrest]

theorem writeEntries_injective (hes : WellFormed es) (hfs : WellFormed fs)
    (h : writeEntries es = writeEntries fs) : es = fs := by
  have h' := List.append_cancel_left h
  cases es with
  | nil =>
    cases fs with
    | nil => rfl
    | cons f fs => exact absurd (List.cons.inj h').1 (by decide)
  | cons e es =>
    cases fs with
    | nil => exact absurd (List.cons.inj h').1 (by decide)
    | cons f fs =>
      obtain ⟨rfl, hrest⟩ := writeEntry_cancel hes.uncons.1 hfs.uncons.1 h'
      rw [writeRest_injective hes.uncons.2 hfs.uncons.2 hrest]

theorem parseDirectoryJSON_eq_ok [JsonDecoder] {data : GoString}
    (h : parseDirectoryJSON data = .ok entries) :
    WellFormed entries ∧ data = writeEntries entries := by
  simp only [parseDirectoryJSON, marshalDirectoryEntries, normalizeDirectoryEntries, ok_iff,
    validateDirectoryManifest_eq_ok, not_not] at h
  obtain ⟨-, -, es, -, -, hwell, canonical, ⟨normalized, ⟨-, -, hsort⟩, hcanonical⟩, -,
    hdata, rfl⟩ := h
  refine ⟨hwell, ?_⟩
  rw [hdata, ← hcanonical, ← hsort, hwell.sortOn_eq]

end MaltClient.DirectoryManifest
