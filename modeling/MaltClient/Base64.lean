import MaltClient.GoText

/-! The raw encodings of `encoding/base64`: without padding, and with line breaks
skipped when a text is read. -/

namespace Base64

open GoText

inductive Encoding where
  | rawStd
  | rawURL
  deriving DecidableEq, Repr

def Encoding.alphabet : Encoding → List Char
  | .rawStd => "ABCDEFGHIJKLMNOPQRSTUVWXYZabcdefghijklmnopqrstuvwxyz0123456789+/".toList
  | .rawURL => "ABCDEFGHIJKLMNOPQRSTUVWXYZabcdefghijklmnopqrstuvwxyz0123456789-_".toList

def symbol (encoding : Encoding) (v : Nat) : Rune := .char (encoding.alphabet.getD v 'A')

def value (encoding : Encoding) : Rune → Option Nat
  | .char c => encoding.alphabet.idxOf? c
  | .bad _ => none

/-- Three bytes are four values of six bits; what is left over is filled up with
zero bits. -/
def sextets : List UInt8 → List Nat
  | a :: b :: c :: rest =>
    let n := a.toNat * 65536 + b.toNat * 256 + c.toNat
    n / 262144 :: n / 4096 % 64 :: n / 64 % 64 :: n % 64 :: sextets rest
  | [a, b] =>
    let n := a.toNat * 1024 + b.toNat * 4
    [n / 4096, n / 64 % 64, n % 64]
  | [a] => [a.toNat * 16 / 64, a.toNat * 16 % 64]
  | [] => []

/-- The bits that fill up the last values are not looked at. -/
def octets : List Nat → Option (List UInt8)
  | p :: q :: r :: s :: rest => do
    let n := p * 262144 + q * 4096 + r * 64 + s
    let tail ← octets rest
    return UInt8.ofNat (n / 65536) :: UInt8.ofNat (n / 256) :: UInt8.ofNat n :: tail
  | [p, q, r] =>
    some [UInt8.ofNat ((p * 4096 + q * 64 + r) / 1024), UInt8.ofNat ((p * 4096 + q * 64 + r) / 4)]
  | [p, q] => some [UInt8.ofNat ((p * 64 + q) / 16)]
  | [_] => none
  | [] => some []

def encodeToString (encoding : Encoding) (data : List UInt8) : GoString :=
  (sextets data).map (symbol encoding)

def decodeString (encoding : Encoding) (s : GoString) : Option (List UInt8) := do
  let values ← (s.filter fun r => r ≠ .char '\n' ∧ r ≠ .char '\r').mapM (value encoding)
  octets values

theorem ofNat_eq {a : UInt8} {n : Nat} (h : n % 256 = a.toNat) : UInt8.ofNat n = a := by
  rw [← UInt8.toNat_inj, UInt8.toNat_ofNat', h]

theorem octets_sextets (data : List UInt8) : octets (sextets data) = some data := by
  fun_induction sextets data with
  | case1 a b c rest n ih =>
    have ha := a.toNat_lt
    have hb := b.toNat_lt
    have hc := c.toNat_lt
    have hn : n / 262144 * 262144 + n / 4096 % 64 * 4096 + n / 64 % 64 * 64 + n % 64 = n := by omega
    simp only [octets, hn, ih, Option.bind_eq_bind, Option.bind_some, Option.pure_def]
    rw [ofNat_eq (a := a) (by omega), ofNat_eq (a := b) (by omega), ofNat_eq (a := c) (by omega)]
  | case2 a b n =>
    have ha := a.toNat_lt
    have hb := b.toNat_lt
    rw [octets, ofNat_eq (a := a) (by omega), ofNat_eq (a := b) (by omega)]
  | case3 a =>
    have ha := a.toNat_lt
    rw [octets, ofNat_eq (a := a) (by omega)]
  | case4 => rfl

theorem sextets_lt {data : List UInt8} : ∀ v ∈ sextets data, v < 64 := by
  fun_induction sextets data with
  | case1 a b c rest n ih =>
    have ha := a.toNat_lt
    have hb := b.toNat_lt
    have hc := c.toNat_lt
    simp only [List.forall_mem_cons]
    exact ⟨by omega, by omega, by omega, by omega, ih⟩
  | case2 a b n =>
    have ha := a.toNat_lt
    have hb := b.toNat_lt
    simp only [List.forall_mem_cons]
    exact ⟨by omega, by omega, by omega, by simp⟩
  | case3 a =>
    have ha := a.toNat_lt
    simp only [List.forall_mem_cons]
    exact ⟨by omega, by omega, by simp⟩
  | case4 => simp

theorem value_symbol (encoding : Encoding) : ∀ v < 64, value encoding (symbol encoding v) = some v ∧
    symbol encoding v ≠ .char '\n' ∧ symbol encoding v ≠ .char '\r' := by
  cases encoding <;> decide +kernel

theorem decodeString_encodeToString (encoding : Encoding) (data : List UInt8) :
    decodeString encoding (encodeToString encoding data) = some data := by
  have hvalue := value_symbol encoding
  have hvalues (vs : List Nat) (h : ∀ v ∈ vs, v < 64) :
      ((vs.map (symbol encoding)).filter fun r => r ≠ .char '\n' ∧ r ≠ .char '\r').mapM
        (value encoding) = some vs := by
    induction vs with
    | nil => rfl
    | cons v vs ih =>
      obtain ⟨hv, hline, hreturn⟩ := hvalue v (h v (by simp))
      rw [List.map_cons, List.filter_cons_of_pos (by simp [hline, hreturn]), List.mapM_cons, hv,
        ih fun w hw => h w (by simp [hw])]
      rfl
  rw [decodeString, encodeToString, hvalues _ sextets_lt]
  exact octets_sextets data

theorem validString_encodeToString (encoding : Encoding) (data : List UInt8) :
    validString (encodeToString encoding data) = true := by
  refine List.all_eq_true.mpr fun r hr => ?_
  obtain ⟨v, -, rfl⟩ := List.mem_map.mp hr
  rfl

end Base64
