import Mathlib

/-! Numbers in a fixed number of bytes, the highest first, and sequences of byte
strings in which each is preceded by its length. -/

namespace ByteFields

/-- The lowest `w` bytes of a number. -/
def bigEndian : Nat → Nat → List UInt8
  | 0, _ => []
  | w + 1, n => UInt8.ofNat (n / 256 ^ w) :: bigEndian w n

def ofBigEndian (l : List UInt8) : Nat := l.foldl (fun n b => n * 256 + b.toNat) 0

@[simp] theorem length_bigEndian (w n : Nat) : (bigEndian w n).length = w := by
  induction w with
  | zero => rfl
  | succ w ih => rw [bigEndian, List.length_cons, ih]

theorem foldl_bigEndian (w n k : Nat) :
    (bigEndian w n).foldl (fun n b => n * 256 + b.toNat) k = k * 256 ^ w + n % 256 ^ w := by
  induction w generalizing k with
  | zero => simp [bigEndian, Nat.mod_one]
  | succ w ih =>
    have hbyte : (UInt8.ofNat (n / 256 ^ w)).toNat = n / 256 ^ w % 256 := by rw [UInt8.toNat_ofNat']
    have hmod : n % 256 ^ (w + 1) = n % 256 ^ w + 256 ^ w * (n / 256 ^ w % 256) := by
      rw [Nat.pow_succ]
      exact Nat.mod_mul
    rw [bigEndian, List.foldl_cons, ih, hbyte, hmod, Nat.pow_succ]
    ring

theorem ofBigEndian_bigEndian (w n : Nat) : ofBigEndian (bigEndian w n) = n % 256 ^ w := by
  rw [ofBigEndian, foldl_bigEndian, Nat.zero_mul, Nat.zero_add]

variable {w : Nat}

theorem bigEndian_injective {m n : Nat} (hm : m < 256 ^ w) (hn : n < 256 ^ w)
    (h : bigEndian w m = bigEndian w n) : m = n := by
  have hback := ofBigEndian_bigEndian w m
  rw [h, ofBigEndian_bigEndian, Nat.mod_eq_of_lt hm, Nat.mod_eq_of_lt hn] at hback
  exact hback.symm

/-- A byte string after its length in `w` bytes. -/
def field (w : Nat) (part : List UInt8) : List UInt8 := bigEndian w part.length ++ part

def fields (w : Nat) (parts : List (List UInt8)) : List UInt8 := parts.flatMap (field w)

theorem field_append_injective {p q r s : List UInt8} (hp : p.length < 256 ^ w)
    (hq : q.length < 256 ^ w) (h : field w p ++ r = field w q ++ s) : p = q ∧ r = s := by
  rw [field, field, List.append_assoc, List.append_assoc] at h
  obtain ⟨hlength, hrest⟩ := List.append_inj h (by rw [length_bigEndian, length_bigEndian])
  exact List.append_inj hrest (bigEndian_injective hp hq hlength)

/-- Words from which something can be read, whatever follows them, give it in a row
as well. -/
theorem map_eq_of_flatMap_eq {α β : Type} {word : α → List UInt8} {view : α → β} {p : α → Prop}
    (hne : ∀ a, word a ≠ [])
    (hsplit : ∀ {a b r s}, p a → p b → word a ++ r = word b ++ s → view a = view b ∧ r = s)
    {l m : List α} (hl : ∀ a ∈ l, p a) (hm : ∀ b ∈ m, p b) (h : l.flatMap word = m.flatMap word) :
    l.map view = m.map view := by
  induction l generalizing m with
  | nil =>
    cases m with
    | nil => rfl
    | cons b m => exact absurd h.symm (List.append_ne_nil_of_left_ne_nil (hne b) _)
  | cons a l ih =>
    cases m with
    | nil => exact absurd h (List.append_ne_nil_of_left_ne_nil (hne a) _)
    | cons b m =>
      obtain ⟨hview, hrest⟩ := hsplit (hl a (by simp)) (hm b (by simp)) h
      rw [List.map_cons, List.map_cons, hview, ih (fun c hc => hl c (by simp [hc])) (fun c hc =>
        hm c (by simp [hc])) hrest]

theorem flatMap_injective {α : Type} {word : α → List UInt8} {p : α → Prop} (hne : ∀ a, word a ≠ [])
    (hsplit : ∀ {a b r s}, p a → p b → word a ++ r = word b ++ s → a = b ∧ r = s) {l m : List α}
    (hl : ∀ a ∈ l, p a) (hm : ∀ b ∈ m, p b) (h : l.flatMap word = m.flatMap word) : l = m := by
  have hmap : l.map id = m.map id := map_eq_of_flatMap_eq hne hsplit hl hm h
  rwa [List.map_id, List.map_id] at hmap

theorem field_ne_nil (hw : 0 < w) (part : List UInt8) : field w part ≠ [] := by
  intro hnil
  have hlength := congrArg List.length hnil
  rw [field, List.length_append, length_bigEndian, List.length_nil] at hlength
  omega

theorem fields_injective (hw : 0 < w) {ps qs : List (List UInt8)}
    (hp : ∀ p ∈ ps, p.length < 256 ^ w)
    (hq : ∀ q ∈ qs, q.length < 256 ^ w) (h : fields w ps = fields w qs) : ps = qs :=
  flatMap_injective (field_ne_nil hw) field_append_injective hp hq h

end ByteFields
