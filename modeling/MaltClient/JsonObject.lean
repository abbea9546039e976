import MaltClient.AssocMap
import MaltClient.GoText

/-! JSON objects as `encoding/json` writes a Go map with text keys. Keys and
values lose their invalid bytes, so two keys of the map may become one, and a
strict reader then refuses the object. -/

namespace JsonObject

open GoText AssocMap

/-- Years zero to 9999, the times that `time.Time` can be marshalled at. Times
count nanoseconds from Go's zero time, the first instant of year one. -/
def marshalable (t : Int) : Prop := -31622400000000000 ≤ t ∧ t < 315537897600000000000

instance (t : Int) : Decidable (marshalable t) := inferInstanceAs (Decidable (_ ∧ _))

/-- A reading of the wall clock, which stays within these years. -/
structure Now where
  nanos : Int
  inRange : marshalable nanos

def yearRange : String := "Time.MarshalJSON: year outside of range [0,9999]"

/-- Marshalling refuses a record with a time outside these years. -/
def marshalTimes {ε : Type} (e : ε) (times : List Int) : Except ε Unit :=
  Checked.reject (¬ ∀ t ∈ times, marshalable t) e

theorem jsonText_jsonText (s : GoString) : jsonText (jsonText s) = jsonText s := by
  apply jsonText_eq_self
  simp only [validString, jsonText, List.all_map, List.all_eq_true]
  intro r _
  simp only [Function.comp_apply]
  split_ifs with h
  · exact h
  · rfl

variable {s : GoString}

theorem jsonText_eq_self_iff : jsonText s = s ↔ validString s = true := by
  refine ⟨fun h => ?_, jsonText_eq_self⟩
  rw [← h]
  simp only [validString, jsonText, List.all_map, List.all_eq_true]
  intro r _
  cases r <;> rfl

/-- Texts that are kept as they are. -/
def Valid (texts : List GoString) : Prop := ∀ s ∈ texts, validString s = true

instance (texts : List GoString) : Decidable (Valid texts) :=
  inferInstanceAs (Decidable (∀ s ∈ texts, _))

@[simp] theorem valid_nil : Valid [] := by simp [Valid]

@[simp] theorem valid_cons {texts : List GoString} :
    Valid (s :: texts) ↔ jsonText s = s ∧ Valid texts := by
  simp [Valid, jsonText_eq_self_iff]

@[simp] theorem valid_append {a b : List GoString} : Valid (a ++ b) ↔ Valid a ∧ Valid b :=
  List.forall_mem_append

theorem map_eq_self_iff {α : Type} {f : α → α} {l : List α} : l.map f = l ↔ ∀ a ∈ l, f a = a := by
  simpa using List.map_inj_left (f := f) (g := id) (l := l)

theorem valid_flatMap {α : Type} {f : α → α} {texts : α → List GoString}
    (h : ∀ a, f a = a ↔ Valid (texts a)) {l : List α} : Valid (l.flatMap texts) ↔ l.map f = l := by
  simp only [map_eq_self_iff, h, Valid, List.mem_flatMap]
  exact ⟨fun hall a ha s hs => hall s ⟨a, ha, hs⟩, fun hall s ⟨a, ha, hs⟩ => hall a ha s hs⟩

theorem valid_iff_map {texts : List GoString} : Valid texts ↔ texts.map jsonText = texts := by
  simp [map_eq_self_iff, Valid, jsonText_eq_self_iff]

theorem jsonText_eq_nil : jsonText s = [] ↔ s = [] := List.map_eq_nil_iff

/-- The replacement character is not a space, so trimmed text stays trimmed. -/
theorem trimSpace_jsonText (h : trimSpace s = s) : trimSpace (jsonText s) = jsonText s := by
  have hspace : ∀ r : Rune, isSpace r = false →
      isSpace (if r.isValid then r else .char (Char.ofNat 0xFFFD)) = false := by
    intro r hr
    cases r with
    | char c => exact hr
    | bad b =>
      have hreplacement : isSpace (.char (Char.ofNat 0xFFFD)) = false := by decide
      exact hreplacement
  obtain ⟨hhead, hlast⟩ := ends_of_trimSpace h
  apply trimSpace_eq_self
  · intro r hr
    rw [jsonText, List.head?_map, Option.mem_map] at hr
    obtain ⟨r, hr, rfl⟩ := hr
    exact hspace r (hhead r hr)
  · intro r hr
    rw [jsonText, List.getLast?_map, Option.mem_map] at hr
    obtain ⟨r, hr, rfl⟩ := hr
    exact hspace r (hlast r hr)

theorem validString_trimSpace (s : GoString) : validString (trimSpace s) = validString s := by
  have hspace : ∀ t : GoString, (∀ r ∈ t, isSpace r = true) → validString t = true := by
    intro t ht
    refine List.all_eq_true.mpr fun r hr => ?_
    cases r with
    | char c => rfl
    | bad b => exact absurd (ht _ hr) (by simp [isSpace])
  have hleft : validString s = validString (s.dropWhile isSpace) := by
    conv_lhs => rw [← List.takeWhile_append_dropWhile (p := isSpace) (l := s)]
    rw [validString, List.all_append, ← validString, hspace _ fun r hr => List.mem_takeWhile_imp hr,
      Bool.true_and, ← validString]
  have hright : ∀ t : GoString, validString (t.rdropWhile isSpace) = validString t := by
    intro t
    conv_rhs => rw [← List.rdropWhile_append_rtakeWhile (p := isSpace) (l := t)]
    rw [validString, validString, List.all_append, ← validString, ← validString,
      hspace _ fun r hr => List.mem_rtakeWhile_imp hr, Bool.and_true]
  rw [trimSpace, hright, hleft]

variable {υ : Type}

instance (l : List (Σ _ : GoString, υ)) :
    Decidable l.NodupKeys := inferInstanceAs (Decidable l.keys.Nodup)

def encode (norm : υ → υ) (m : AList fun _ : GoString => υ) : List (Σ _ : GoString, υ) :=
  m.entries.map fun e => ⟨jsonText e.1, norm e.2⟩

def decode (l : List (Σ _ : GoString, υ)) : Option (AList fun _ : GoString => υ) :=
  if h : l.NodupKeys then some ⟨l, h⟩ else none

/-- A map that loses nothing. -/
def Normal (norm : υ → υ) (m : AList fun _ : GoString => υ) : Prop :=
  ∀ k v, m.lookup k = some v → jsonText k = k ∧ norm v = v

section

variable {norm : υ → υ} {m m' : AList fun _ : GoString => υ}

theorem entries_of_decode {l : List (Σ _ : GoString, υ)} (h : decode l = some m) :
    m.entries = l := by
  unfold decode at h
  split_ifs at h
  exact (congrArg AList.entries (Option.some.inj h)).symm

theorem decode_encode_of_normal (h : Normal norm m) : decode (encode norm m) = some m := by
  have hsame : encode norm m = m.entries := by
    refine (List.map_congr_left fun e he => ?_).trans (List.map_id m.entries)
    obtain ⟨hk, hv⟩ := h e.1 e.2 (mem_entries_iff.mp he)
    exact Sigma.ext hk (heq_of_eq hv)
  rw [hsame, decode, dif_pos m.nodupKeys]

theorem normal_iff : Normal norm m ↔ ∀ e ∈ m.entries, jsonText e.1 = e.1 ∧ norm e.2 = e.2 :=
  ⟨fun h e he => h e.1 e.2 (mem_entries_iff.mp he), fun h k v hl =>
    h ⟨k, v⟩ (mem_entries_iff.mpr hl)⟩

theorem decode_encode_eq_self : decode (encode norm m) = some m ↔ Normal norm m := by
  refine ⟨fun h => ?_, decode_encode_of_normal⟩
  have hsame :
    m.entries.map (fun e => (⟨jsonText e.1, norm e.2⟩ : Σ _ : GoString, υ)) = m.entries.map id := by
    rw [List.map_id]
    exact (entries_of_decode h).symm
  rw [normal_iff]
  intro e he
  obtain ⟨hk, hv⟩ := Sigma.mk.inj (List.map_inj_left.mp hsame e he)
  exact ⟨hk, eq_of_heq hv⟩

variable {k : GoString}

theorem normal_insert (h : Normal norm m) {v : υ} :
    Normal norm (m.insert k v) ↔ jsonText k = k ∧ norm v = v := by
  refine ⟨fun h => h k v (AList.lookup_insert m), fun hv k' v' hl => ?_⟩
  rw [lookup_insert_eq] at hl
  split_ifs at hl with hk
  · cases hl
    exact hk ▸ hv
  · exact h k' v' hl

theorem lookup_of_decode (h : decode (encode norm m) = some m') {v : υ} (hl : m.lookup k = some v) :
    m'.lookup (jsonText k) = some (norm v) := by
  rw [← mem_entries_iff, entries_of_decode h]
  exact List.mem_map.mpr ⟨⟨k, v⟩, mem_entries_iff.mpr hl, rfl⟩

theorem exists_of_decode (h : decode (encode norm m) = some m') {v : υ}
    (hl : m'.lookup k = some v) :
    ∃ k₀ v₀, m.lookup k₀ = some v₀ ∧ jsonText k₀ = k ∧ norm v₀ = v := by
  rw [← mem_entries_iff, entries_of_decode h] at hl
  obtain ⟨e, he, heq⟩ := List.mem_map.mp hl
  obtain ⟨hk, hv⟩ := Sigma.mk.inj heq
  exact ⟨e.1, e.2, mem_entries_iff.mp he, hk, eq_of_heq hv⟩

/-- No two keys of a map that can be read back are written as one. -/
theorem key_injective (h : decode (encode norm m) = some m') {k' : GoString} (hk : k ∈ m)
    (hk' : k' ∈ m) (he : jsonText k = jsonText k') : k = k' := by
  have hkeys : (m.keys.map jsonText).Nodup := by
    have hnodup : m'.entries.keys.Nodup := m'.nodupKeys
    rw [entries_of_decode h, encode, List.keys, List.map_map] at hnodup
    simpa [AList.keys, List.keys, List.map_map, Function.comp_def] using hnodup
  exact List.inj_on_of_nodup_map hkeys hk hk' he

theorem normal_of_decode (hnorm : ∀ v, norm (norm v) = norm v)
    (h : decode (encode norm m) = some m') : Normal norm m' := by
  intro k v hl
  obtain ⟨k₀, v₀, -, rfl, rfl⟩ := exists_of_decode h hl
  exact ⟨jsonText_jsonText k₀, hnorm v₀⟩

/-- A written entry is found under what is left of its key, which no other
entry had. -/
theorem lookup_insert_of_decode {v : υ} (hm : Normal norm m)
    (h : decode (encode norm (m.insert k v)) = some m') : m.lookup (jsonText k) = m.lookup k ∧
      ∀ k', m'.lookup k' = if k' = jsonText k then some (norm v) else m.lookup k' := by
  have hself : (m.insert k v).lookup k = some v := AList.lookup_insert m
  have hsame : m.lookup (jsonText k) = m.lookup k := by
    by_cases hk : jsonText k = k
    · rw [hk]
    · have hnone : m.lookup k = none := by
        by_contra hsome
        obtain ⟨w, hw⟩ := Option.ne_none_iff_exists'.mp hsome
        exact hk (hm k w hw).1
      have hnone' : m.lookup (jsonText k) = none := by
        by_contra hsome
        have hmem : jsonText k ∈ m.insert k v :=
          (AList.mem_insert m).mpr
            (.inr (AList.lookup_isSome.mp (Option.isSome_iff_ne_none.mpr hsome)))
        exact hk (key_injective h hmem ((AList.mem_insert m).mpr (.inl rfl)) (jsonText_jsonText k))
      rw [hnone, hnone']
  refine ⟨hsame, fun k' => ?_⟩
  split_ifs with hk'
  · rw [hk']
    exact lookup_of_decode h hself
  · cases hl : m.lookup k' with
    | some w =>
      obtain ⟨hfix, hw⟩ := hm k' w hl
      have hne : k' ≠ k := fun he => hk' (by rw [← he, hfix])
      have hfound : (m.insert k v).lookup k' = some w := by rw [lookup_insert_eq, if_neg hne, hl]
      have := lookup_of_decode h hfound
      rwa [hfix, hw] at this
    | none =>
      by_contra hsome
      obtain ⟨w, hw⟩ := Option.ne_none_iff_exists'.mp hsome
      obtain ⟨k₀, v₀, hl₀, rfl, -⟩ := exists_of_decode h hw
      rw [lookup_insert_eq] at hl₀
      split_ifs at hl₀ with hk₀
      · exact hk' (by rw [hk₀])
      · rw [(hm k₀ v₀ hl₀).1, hl₀] at hl
        simp at hl

end

section reread

/-- What a strict reader finds of a member, if its value can be read. -/
def member (norm : υ → Option υ) (e : Σ _ : GoString, υ) : Option (Σ _ : GoString, υ) :=
  (norm e.2).map fun v => ⟨jsonText e.1, v⟩

/-- What a strict reader finds of a map that was written. -/
def reread (norm : υ → Option υ) (m : AList fun _ : GoString => υ) :
    Option (AList fun _ : GoString => υ) :=
  (m.entries.mapM (member norm)).bind decode

variable {norm : υ → Option υ} {m m' : AList fun _ : GoString => υ}

theorem mapM_eq_some {α β : Type} {f : α → Option β} {l : List α} {r : List β} :
    l.mapM f = some r ↔ List.Forall₂ (fun a b => f a = some b) l r := by
  induction l generalizing r with
  | nil => cases r <;> simp
  | cons a l ih =>
    simp only [List.mapM_cons, Option.bind_eq_bind, Option.bind_eq_some_iff, Option.pure_def,
      Option.some.injEq]
    constructor
    · rintro ⟨b, hb, bs, hbs, rfl⟩
      exact .cons hb (ih.mp hbs)
    · intro h
      cases h with
      | cons hb hbs => exact ⟨_, hb, _, ih.mpr hbs, rfl⟩

theorem decode_eq_some {l : List (Σ _ : GoString, υ)} : decode l = some m ↔ m.entries = l := by
  refine ⟨entries_of_decode, ?_⟩
  rintro rfl
  rw [decode, dif_pos m.nodupKeys]

theorem reread_eq_some :
    reread norm m = some m' ↔ List.Forall₂ (fun e e' => member norm e = some e') m.entries
      m'.entries := by
  simp only [reread, Option.bind_eq_some_iff, decode_eq_some, mapM_eq_some]
  constructor
  · rintro ⟨l, hl, rfl⟩
    exact hl
  · intro h
    exact ⟨_, h, rfl⟩

theorem member_eq_self {e : Σ _ : GoString, υ} :
    member norm e = some e ↔ jsonText e.1 = e.1 ∧ norm e.2 = some e.2 := by
  obtain ⟨k, v⟩ := e
  simp only [member, Option.map_eq_some_iff, Sigma.mk.injEq, heq_eq_eq]
  constructor
  · rintro ⟨w, hw, hk, rfl⟩
    exact ⟨hk, hw⟩
  · rintro ⟨hk, hw⟩
    exact ⟨v, hw, hk, rfl⟩

theorem reread_eq_self : reread norm m = some m ↔ ∀ e ∈ m.entries, member norm e = some e := by
  rw [reread_eq_some, List.forall₂_same]

theorem reread_reread (hnorm : ∀ v w, norm v = some w → norm w = some w)
    (h : reread norm m = some m') : reread norm m' = some m' := by
  rw [reread_eq_some] at h
  rw [reread_eq_self]
  intro e he
  obtain ⟨i, hi, rfl⟩ := List.getElem_of_mem he
  have hmember := h.get (h.length_eq ▸ hi) hi
  simp only [List.get_eq_getElem, member, Option.map_eq_some_iff] at hmember
  obtain ⟨v, hv, hmember⟩ := hmember
  rw [← hmember, member_eq_self]
  exact ⟨jsonText_jsonText _, hnorm _ _ hv⟩

/-- An entry can be added unless its value cannot be read, or its key becomes
that of another entry. -/
theorem reread_insert_isSome (h : reread norm m = some m) (k : GoString) (v : υ) :
    (reread norm (m.insert k v)).isSome = true ↔ (jsonText k = k ∨ jsonText k ∉ m) ∧
      (norm v).isSome = true := by
  have hrest : (m.entries.kerase k).mapM (member norm) = some (m.entries.kerase k) := by
    rw [mapM_eq_some, List.forall₂_same]
    exact fun e he => reread_eq_self.mp h e (List.kerase_sublist k m.entries |>.subset he)
  have hkey : jsonText k ∈ (m.entries.kerase k).keys ↔ jsonText k ≠ k ∧ jsonText k ∈ m := by
    by_cases hk : jsonText k = k
    · have hnot : k ∉ (m.entries.kerase k).keys := List.notMem_keys_kerase k m.nodupKeys
      simp [hk, hnot]
    · rw [List.mem_keys_kerase_of_ne hk]
      exact (and_iff_right hk).symm
  rw [reread, AList.entries_insert, List.mapM_cons, hrest]
  cases hv : norm v with
  | none => simp [member, hv]
  | some w =>
    have hnodup : (⟨jsonText k, w⟩ :: m.entries.kerase k : List (Σ _ : GoString, υ)).NodupKeys ↔
        jsonText k = k ∨ jsonText k ∉ m := by
      rw [List.nodupKeys_cons, hkey]
      have htail : (m.entries.kerase k).NodupKeys := m.nodupKeys.kerase k
      tauto
    simp only [member, hv, Option.map_some, Option.bind_eq_bind, Option.bind_some,
      Option.pure_def, decode, Option.isSome_some, and_true, ← hnodup]
    split_ifs with hd
    · simp [hd]
    · simp [hd]

end reread

end JsonObject
