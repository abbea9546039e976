import MaltClient.ChunkedReads
import MaltClient.EncryptedRestore
import MaltClient.Keyring

/-! Where the chunks of an encrypted file lie, by its manifest, and when that is
exact outside of 64-bit arithmetic. -/

namespace MaltClient.EncryptedUnixFs

open GoText Checked Payloads
open BackupKeys (formatUint)

section chunks

def chunkPlaintextLength (manifest : FileManifest) (index : UInt64) :
    Except RestoreError UInt64 := do
  validateFileManifest manifest
  reject (index ≥ manifest.chunkCount)
    (.message "encrypted UnixFS chunk index %d is out of range" [formatUint index.toNat])
  return if index + 1 < manifest.chunkCount then manifest.plaintextChunkSize else lastPlain manifest

def chunkCiphertextLength (manifest : FileManifest) (index : UInt64) :
    Except RestoreError UInt64 := do
  let plain ← chunkPlaintextLength manifest index
  return plain + envelopeOverhead

def chunkOffset (manifest : FileManifest) (index : UInt64) : Except RestoreError UInt64 := do
  reject (index ≥ manifest.chunkCount)
    (.message "encrypted UnixFS chunk index %d is out of range" [formatUint index.toNat])
  return index * manifest.ciphertextChunkSize

end chunks

section accepted

variable {m : FileManifest}

structure RegularFile (m : FileManifest) : Prop where
  linkTarget : m.linkTarget = []
  width : 0 < m.plaintextChunkSize.toNat
  chunks : 0 < m.chunkCount.toNat
  chunkCount : m.chunkCount = wantChunks m
  ciphertextChunkSize : m.ciphertextChunkSize = m.plaintextChunkSize + envelopeOverhead
  ciphertextSize :
    m.ciphertextSize = (m.chunkCount - 1) * m.ciphertextChunkSize + lastPlain m + envelopeOverhead
  raw : m.storage = .raw ↔ m.chunkCount = 1
  list : m.storage = .list ↔ m.chunkCount ≠ 1

theorem pos_of_ne_zero {x : UInt64} (h : ¬ x = 0) : 0 < x.toNat := by
  have hne : x.toNat ≠ 0 := fun hzero => h (UInt64.toNat_inj.mp hzero)
  omega

theorem regularFile_of_accepted (h : validateFileManifest m = .ok ()) (hkind : m.kind = .file) :
    RegularFile m := by
  unfold validateFileManifest at h
  simp only [hkind, ok_iff] at h
  obtain ⟨_, _, _, hshape, _, hgeometry, hcipher⟩ := h
  push Not at hshape hgeometry hcipher
  obtain ⟨hlink, hstorage, hwidth, _, _, hchunks⟩ := hshape
  have hraw : m.storage = .raw ↔ m.chunkCount = 1 := decide_eq_decide.mp hcipher.2
  have hlist : m.storage = .list ↔ m.chunkCount ≠ 1 := by
    rw [Ne, ← hraw]
    constructor
    · intro hl hr
      rw [hl] at hr
      cases hr
    · exact hstorage
  exact ⟨hlink, pos_of_ne_zero hwidth, pos_of_ne_zero hchunks, hgeometry.1, hgeometry.2,
    hcipher.1, hraw, hlist⟩

theorem symlink_of_accepted (h : validateFileManifest m = .ok ()) (hkind : m.kind ≠ .file) :
    m.chunkCount = 0 := by
  unfold validateFileManifest at h
  rw [bind_eq_ok] at h
  obtain ⟨_, _, h⟩ := h
  cases hk : m.kind with
  | file => exact absurd hk hkind
  | symlink =>
    simp only [hk, reject_eq_ok] at h
    push Not at h
    exact h.2.2.2.1
  | directory =>
    rw [hk] at h
    exact absurd h throw_ne_ok
  | other value =>
    rw [hk] at h
    exact absurd h throw_ne_ok

def plainChunks (size width : Nat) : Nat := max 1 ((size + width - 1) / width)

theorem RegularFile.toNat_chunkCount (hm : RegularFile m) :
    m.chunkCount.toNat = plainChunks m.size.toNat m.plaintextChunkSize.toNat := by
  have hwidth := hm.width
  have hchunks := hm.chunks
  rw [hm.chunkCount, wantChunks] at hchunks ⊢
  rw [plainChunks]
  by_cases hsize : 0 < m.size
  · rw [if_pos hsize] at hchunks ⊢
    rw [UInt64.lt_iff_toNat_lt] at hsize
    have hbelow := m.size.toNat_lt
    have hbelow' := m.plaintextChunkSize.toNat_lt
    have hvalue : (m.size + m.plaintextChunkSize - 1).toNat =
        (m.size.toNat + m.plaintextChunkSize.toNat - 1) % 2 ^ 64 := by
      rw [UInt64.toNat_sub, UInt64.toNat_add, UInt64.toNat_one]
      omega
    rw [UInt64.toNat_div, hvalue] at hchunks ⊢
    by_cases hwrap : m.size.toNat + m.plaintextChunkSize.toNat - 1 < 2 ^ 64
    · rw [Nat.mod_eq_of_lt hwrap] at hchunks ⊢
      exact (Nat.max_eq_right hchunks).symm
    · have hnone : (m.size.toNat + m.plaintextChunkSize.toNat - 1) % 2 ^ 64 <
        m.plaintextChunkSize.toNat := by omega
      rw [Nat.div_eq_of_lt hnone] at hchunks
      omega
  · have hzero : m.size.toNat = 0 := by
      rw [UInt64.lt_iff_toNat_lt] at hsize
      exact Nat.eq_zero_of_not_pos hsize
    rw [if_neg hsize, hzero, Nat.div_eq_of_lt (by omega)]
    rfl

theorem mod_succ_or_full {k p : Nat} (hp : 0 < p) :
    (if (k + 1) % p = 0 then p else (k + 1) % p) = k % p + 1 := by
  have hlt := Nat.mod_lt k hp
  have hsplit : k + 1 = p * (k / p) + (k % p + 1) := by
    have := Nat.div_add_mod k p
    omega
  by_cases hlast : k % p + 1 = p
  · have hmod : (k + 1) % p = 0 := by
      rw [hsplit, hlast, Nat.mul_add_mod, Nat.mod_self]
    rw [if_pos hmod, hlast]
  · have hmod : (k + 1) % p = k % p + 1 := by
      rw [hsplit, Nat.mul_add_mod, Nat.mod_eq_of_lt (by omega)]
    rw [hmod, if_neg (by omega)]

theorem toNat_lastPlain (hwidth : 0 < m.plaintextChunkSize.toNat) (hsize : 0 < m.size.toNat) :
    (lastPlain m).toNat = (m.size.toNat - 1) % m.plaintextChunkSize.toNat + 1 := by
  obtain ⟨k, hk⟩ := Nat.exists_eq_add_of_le' hsize
  have hne : ¬ m.size = 0 := by
    intro hzero
    rw [hzero] at hsize
    exact absurd hsize (by decide)
  have hmod :
    (m.size % m.plaintextChunkSize = 0) ↔ (m.size.toNat % m.plaintextChunkSize.toNat = 0) := by
    rw [← UInt64.toNat_inj, UInt64.toNat_mod]
    rfl
  rw [lastPlain, if_neg hne, apply_ite UInt64.toNat, UInt64.toNat_mod]
  simp only [hmod]
  rw [hk, mod_succ_or_full hwidth, Nat.add_sub_cancel]

theorem RegularFile.last_le (hm : RegularFile m) :
    (lastPlain m).toNat ≤ m.plaintextChunkSize.toNat := by
  by_cases hsize : 0 < m.size.toNat
  · rw [toNat_lastPlain hm.width hsize]
    exact Nat.mod_lt _ hm.width
  · have hzero : m.size = 0 := UInt64.toNat_inj.mp (Nat.eq_zero_of_not_pos hsize)
    rw [lastPlain, if_pos hzero]
    exact Nat.zero_le _

theorem RegularFile.size_eq (hm : RegularFile m) :
    m.size.toNat = (m.chunkCount.toNat - 1) * m.plaintextChunkSize.toNat + (lastPlain m).toNat := by
  rw [hm.toNat_chunkCount, plainChunks]
  by_cases hsize : 0 < m.size.toNat
  · rw [toNat_lastPlain hm.width hsize]
    have hcount : (m.size.toNat + m.plaintextChunkSize.toNat - 1) / m.plaintextChunkSize.toNat =
        (m.size.toNat - 1) / m.plaintextChunkSize.toNat + 1 := by
      rw [show m.size.toNat + m.plaintextChunkSize.toNat - 1 = (m.size.toNat - 1) +
        m.plaintextChunkSize.toNat by omega]
      exact Nat.add_div_right _ hm.width
    rw [hcount, Nat.max_eq_right (Nat.le_add_left 1 _), Nat.add_sub_cancel]
    have := Nat.div_add_mod' (m.size.toNat - 1) m.plaintextChunkSize.toNat
    omega
  · have hzero : m.size = 0 := UInt64.toNat_inj.mp (Nat.eq_zero_of_not_pos hsize)
    have hwidth := hm.width
    rw [lastPlain, if_pos hzero, hzero, Nat.div_eq_of_lt (by simp; omega)]
    simp

theorem RegularFile.ciphertextSize_eq (hm : RegularFile m) :
    m.ciphertextSize = m.size + m.chunkCount * envelopeOverhead := by
  have hless : UInt64.ofNat (m.chunkCount.toNat - 1) = m.chunkCount - 1 := by
    apply UInt64.toNat_inj.mp
    have hlt := m.chunkCount.toNat_lt
    rw [toNat_sub (by rw [UInt64.toNat_one]; exact hm.chunks), toNat_ofNat (by omega),
      UInt64.toNat_one]
  have hsize := congrArg UInt64.ofNat hm.size_eq
  rw [UInt64.ofNat_add, UInt64.ofNat_mul, hless, UInt64.ofNat_toNat, UInt64.ofNat_toNat,
    UInt64.ofNat_toNat] at hsize
  rw [hm.ciphertextSize, hm.ciphertextChunkSize, hsize]
  grind

end accepted

section exact

variable {m : FileManifest}

def natural : Except RestoreError UInt64 → Nat
  | .ok n => n.toNat
  | .error _ => 0

def plainLength (m : FileManifest) (i : Nat) : Nat :=
  natural (chunkPlaintextLength m (UInt64.ofNat i))

def cipherLength (m : FileManifest) (i : Nat) : Nat :=
  natural (chunkCiphertextLength m (UInt64.ofNat i))

def cipherStart (m : FileManifest) (i : Nat) : Nat := natural (chunkOffset m (UInt64.ofNat i))

def cipherRange (m : FileManifest) (i : Nat) : Set Nat :=
  Set.Ico (cipherStart m i) (cipherStart m i + cipherLength m i)

structure ExactGeometry (m : FileManifest) : Prop where
  count : m.chunkCount.toNat = plainChunks m.size.toNat m.plaintextChunkSize.toNat
  width : m.ciphertextChunkSize.toNat = m.plaintextChunkSize.toNat + envelopeOverhead.toNat
  plain : ∑ i ∈ Finset.range m.chunkCount.toNat, plainLength m i = m.size.toNat
  cipher : ∑ i ∈ Finset.range m.chunkCount.toNat, cipherLength m i = m.ciphertextSize.toNat
  consecutive :
    ∀ i, i + 1 < m.chunkCount.toNat → cipherStart m i + cipherLength m i = cipherStart m (i + 1)
  disjoint : ∀ i < m.chunkCount.toNat, ∀ j < m.chunkCount.toNat, i ≠ j → Disjoint (cipherRange m i)
    (cipherRange m j)
  covers : ⋃ i ∈ Finset.range m.chunkCount.toNat, cipherRange m i = Set.Iio m.ciphertextSize.toNat

/-- The widths and the total of the ciphertext are below `2 ^ 64`. -/
def Fits (m : FileManifest) : Prop :=
  m.plaintextChunkSize.toNat + envelopeOverhead.toNat < 2 ^ 64 ∧
    m.size.toNat + m.chunkCount.toNat * envelopeOverhead.toNat < 2 ^ 64

variable {i : Nat}

theorem toNat_index (hi : i < m.chunkCount.toNat) : (UInt64.ofNat i).toNat = i :=
  toNat_ofNat (Nat.lt_trans hi m.chunkCount.toNat_lt)

theorem chunkPlaintextLength_ok (h : validateFileManifest m = .ok ())
    (hi : i < m.chunkCount.toNat) :
    chunkPlaintextLength m (UInt64.ofNat i) =
      .ok (if i + 1 < m.chunkCount.toNat then m.plaintextChunkSize else lastPlain m) := by
  have hindex := toNat_index hi
  have hcount := m.chunkCount.toNat_lt
  have hnext : UInt64.ofNat i + 1 < m.chunkCount ↔ i + 1 < m.chunkCount.toNat := by
    rw [UInt64.lt_iff_toNat_lt, toNat_add (by rw [hindex, UInt64.toNat_one]; omega), hindex,
      UInt64.toNat_one]
  have hbelow : ¬ UInt64.ofNat i ≥ m.chunkCount := by
    rw [ge_iff_le, UInt64.le_iff_toNat_le, hindex]
    omega
  simp only [← hnext]
  exact bind_eq_ok.mpr ⟨(), h, bind_eq_ok.mpr ⟨(), reject_eq_ok.mpr hbelow, rfl⟩⟩

theorem plainLength_eq (h : validateFileManifest m = .ok ()) (hi : i < m.chunkCount.toNat) :
    plainLength m i = if i + 1 < m.chunkCount.toNat then m.plaintextChunkSize.toNat
      else (lastPlain m).toNat := by
  rw [plainLength, chunkPlaintextLength_ok h hi, natural, apply_ite UInt64.toNat]

theorem RegularFile.plainLength_le (hm : RegularFile m) (h : validateFileManifest m = .ok ())
    (hi : i < m.chunkCount.toNat) : plainLength m i ≤ m.plaintextChunkSize.toNat := by
  rw [plainLength_eq h hi]
  split_ifs
  · exact le_rfl
  · exact hm.last_le

theorem RegularFile.cipherLength_eq (hm : RegularFile m) (h : validateFileManifest m = .ok ())
    (hwidth : m.plaintextChunkSize.toNat + envelopeOverhead.toNat < 2 ^ 64)
    (hi : i < m.chunkCount.toNat) :
    cipherLength m i = plainLength m i + envelopeOverhead.toNat := by
  have hle := hm.plainLength_le h hi
  rw [plainLength, chunkPlaintextLength_ok h hi] at hle ⊢
  rw [cipherLength, chunkCiphertextLength, chunkPlaintextLength_ok h hi]
  exact toNat_add (Nat.lt_of_le_of_lt (Nat.add_le_add_right hle _) hwidth)

theorem RegularFile.sum_plainLength (hm : RegularFile m) (h : validateFileManifest m = .ok ()) :
    ∑ i ∈ Finset.range m.chunkCount.toNat, plainLength m i = m.size.toNat := by
  obtain ⟨n, hn⟩ := Nat.exists_eq_add_of_le' hm.chunks
  have hfull :
    ∑ i ∈ Finset.range n, plainLength m i = ∑ _i ∈ Finset.range n, m.plaintextChunkSize.toNat := by
    refine Finset.sum_congr rfl fun i hi => ?_
    have hi := Finset.mem_range.mp hi
    rw [plainLength_eq h (by omega), if_pos (by omega)]
  rw [hn, Finset.sum_range_succ, hfull, plainLength_eq h (by omega), if_neg (by omega),
    hm.size_eq, hn]
  simp

theorem RegularFile.sum_cipherLength (hm : RegularFile m) (h : validateFileManifest m = .ok ())
    (hwidth : m.plaintextChunkSize.toNat + envelopeOverhead.toNat < 2 ^ 64) :
    ∑ i ∈ Finset.range m.chunkCount.toNat, cipherLength m i =
      m.size.toNat + m.chunkCount.toNat * envelopeOverhead.toNat := by
  have hparts : ∑ i ∈ Finset.range m.chunkCount.toNat, cipherLength m i =
      ∑ i ∈ Finset.range m.chunkCount.toNat, (plainLength m i + envelopeOverhead.toNat) :=
    Finset.sum_congr rfl fun i hi => hm.cipherLength_eq h hwidth (Finset.mem_range.mp hi)
  rw [hparts, Finset.sum_add_distrib, hm.sum_plainLength h]
  simp

theorem RegularFile.toNat_ciphertextChunkSize (hm : RegularFile m) (hfits : Fits m) :
    m.ciphertextChunkSize.toNat = m.plaintextChunkSize.toNat + envelopeOverhead.toNat := by
  rw [hm.ciphertextChunkSize]
  exact toNat_add hfits.1

theorem RegularFile.toNat_ciphertextSize (hm : RegularFile m) (hfits : Fits m) :
    m.ciphertextSize.toNat = m.size.toNat + m.chunkCount.toNat * envelopeOverhead.toNat := by
  obtain ⟨n, hn⟩ := Nat.exists_eq_add_of_le' hm.chunks
  have hbound := hfits.2
  have hsize := hm.size_eq
  have hless : (m.chunkCount - 1).toNat = n := by
    rw [toNat_sub (by rw [UInt64.toNat_one]; exact hm.chunks), hn, UInt64.toNat_one,
      Nat.add_sub_cancel]
  have hfull : n * m.ciphertextChunkSize.toNat = n * m.plaintextChunkSize.toNat + n *
      envelopeOverhead.toNat := by
    rw [hm.toNat_ciphertextChunkSize hfits, Nat.mul_add]
  rw [hn, Nat.add_sub_cancel] at hsize
  rw [hn, Nat.add_mul, Nat.one_mul] at hbound ⊢
  have hproduct :
    ((m.chunkCount - 1) * m.ciphertextChunkSize).toNat = n * m.ciphertextChunkSize.toNat := by
    rw [toNat_mul (by rw [hless]; omega), hless]
  have hsum : ((m.chunkCount - 1) * m.ciphertextChunkSize + lastPlain m).toNat =
      n * m.ciphertextChunkSize.toNat + (lastPlain m).toNat := by
    rw [toNat_add (by rw [hproduct]; omega), hproduct]
  rw [hm.ciphertextSize, toNat_add (by rw [hsum]; omega), hsum]
  omega

theorem RegularFile.total_eq (hm : RegularFile m) (hfits : Fits m) :
    m.ciphertextSize.toNat = (m.chunkCount.toNat - 1) * m.ciphertextChunkSize.toNat +
      ((lastPlain m).toNat + envelopeOverhead.toNat) := by
  obtain ⟨n, hn⟩ := Nat.exists_eq_add_of_le' hm.chunks
  have hsize := hm.size_eq
  rw [hm.toNat_ciphertextSize hfits, hm.toNat_ciphertextChunkSize hfits, hsize, hn,
    Nat.add_sub_cancel]
  ring

theorem chunkOffset_ok (hi : i < m.chunkCount.toNat) :
    chunkOffset m (UInt64.ofNat i) = .ok (UInt64.ofNat i * m.ciphertextChunkSize) := by
  have hbelow : ¬ UInt64.ofNat i ≥ m.chunkCount := by
    rw [ge_iff_le, UInt64.le_iff_toNat_le, toNat_index hi]
    omega
  exact bind_eq_ok.mpr ⟨(), reject_eq_ok.mpr hbelow, rfl⟩

theorem RegularFile.cipherStart_eq (hm : RegularFile m) (hfits : Fits m)
    (hi : i < m.chunkCount.toNat) :
    cipherStart m i = i * m.ciphertextChunkSize.toNat := by
  have hindex := toNat_index hi
  have hle :
    i * m.ciphertextChunkSize.toNat ≤ (m.chunkCount.toNat - 1) * m.ciphertextChunkSize.toNat :=
    Nat.mul_le_mul_right _ (by omega)
  have hproduct : (UInt64.ofNat i).toNat * m.ciphertextChunkSize.toNat < 2 ^ 64 := by
    have htotal := hm.total_eq hfits
    have hbelow := m.ciphertextSize.toNat_lt
    rw [hindex]
    omega
  rw [cipherStart, chunkOffset_ok hi, natural, toNat_mul hproduct, hindex]

theorem RegularFile.cipherEnd_eq (hm : RegularFile m) (h : validateFileManifest m = .ok ())
    (hfits : Fits m) (hi : i < m.chunkCount.toNat) : cipherStart m i + cipherLength m i =
      if i + 1 < m.chunkCount.toNat then (i + 1) * m.ciphertextChunkSize.toNat
        else m.ciphertextSize.toNat := by
  rw [hm.cipherStart_eq hfits hi, hm.cipherLength_eq h hfits.1 hi, plainLength_eq h hi]
  by_cases hnext : i + 1 < m.chunkCount.toNat
  · rw [if_pos hnext, if_pos hnext, ← hm.toNat_ciphertextChunkSize hfits]
    ring
  · have hlast : i = m.chunkCount.toNat - 1 := by omega
    rw [if_neg hnext, if_neg hnext, hm.total_eq hfits, hlast]

theorem RegularFile.cipherEnd_le (hm : RegularFile m) (h : validateFileManifest m = .ok ())
    (hfits : Fits m) (hi : i < m.chunkCount.toNat) :
    cipherStart m i + cipherLength m i ≤ (i + 1) * m.ciphertextChunkSize.toNat := by
  have hle := hm.plainLength_le h hi
  rw [hm.cipherStart_eq hfits hi, hm.cipherLength_eq h hfits.1 hi, Nat.add_mul, Nat.one_mul]
  have hwidth := hm.toNat_ciphertextChunkSize hfits
  omega

theorem RegularFile.disjoint_of_lt (hm : RegularFile m) (h : validateFileManifest m = .ok ())
    (hfits : Fits m) {j : Nat}
    (hij : i < j) (hj : j < m.chunkCount.toNat) : Disjoint (cipherRange m i) (cipherRange m j) := by
  have hend := hm.cipherEnd_le h hfits (Nat.lt_trans hij hj)
  have hstart := hm.cipherStart_eq hfits hj
  have hstep : (i + 1) * m.ciphertextChunkSize.toNat ≤ j * m.ciphertextChunkSize.toNat :=
    Nat.mul_le_mul_right _ hij
  rw [Set.disjoint_left]
  intro n hn hn'
  have hbefore := hn.2
  have hafter := hn'.1
  omega

theorem RegularFile.mem_cipherRange (hm : RegularFile m) (h : validateFileManifest m = .ok ())
    (hfits : Fits m) {n : Nat} :
    (∃ i < m.chunkCount.toNat, n ∈ cipherRange m i) ↔ n < m.ciphertextSize.toNat := by
  have htotal := hm.total_eq hfits
  have hchunks := hm.chunks
  have hwidth : 0 < m.ciphertextChunkSize.toNat := by
    rw [hm.toNat_ciphertextChunkSize hfits]
    exact Nat.add_pos_left hm.width _
  constructor
  · rintro ⟨i, hi, hn⟩
    have hend := hm.cipherEnd_eq h hfits hi
    have hbefore := hn.2
    split_ifs at hend with hnext
    · have hstep : (i + 1) * m.ciphertextChunkSize.toNat ≤ (m.chunkCount.toNat - 1) *
        m.ciphertextChunkSize.toNat :=
        Nat.mul_le_mul_right _ (by omega)
      omega
    · omega
  · intro hn
    by_cases hfull : n / m.ciphertextChunkSize.toNat + 1 < m.chunkCount.toNat
    · have hi : n / m.ciphertextChunkSize.toNat < m.chunkCount.toNat := by omega
      refine ⟨_, hi, ?_, ?_⟩
      · rw [hm.cipherStart_eq hfits hi]
        exact Nat.div_mul_le_self _ _
      · rw [hm.cipherEnd_eq h hfits hi, if_pos hfull]
        exact Nat.lt_mul_of_div_lt (Nat.lt_succ_self _) hwidth
    · have hi : m.chunkCount.toNat - 1 < m.chunkCount.toNat := by omega
      refine ⟨_, hi, ?_, ?_⟩
      · rw [hm.cipherStart_eq hfits hi]
        exact Nat.le_trans (Nat.mul_le_mul_right _ (by omega)) (Nat.div_mul_le_self n _)
      · rw [hm.cipherEnd_eq h hfits hi, if_neg (by omega)]
        exact hn

theorem RegularFile.exact_of_fits (hm : RegularFile m) (h : validateFileManifest m = .ok ())
    (hfits : Fits m) : ExactGeometry m where
  count := hm.toNat_chunkCount
  width := hm.toNat_ciphertextChunkSize hfits
  plain := hm.sum_plainLength h
  cipher := by rw [hm.sum_cipherLength h hfits.1, hm.toNat_ciphertextSize hfits]
  consecutive i hi := by
    rw [hm.cipherEnd_eq h hfits (by omega), if_pos hi, hm.cipherStart_eq hfits hi]
  disjoint i hi j hj hij := by
    rcases Nat.lt_or_gt_of_ne hij with hlt | hlt
    · exact hm.disjoint_of_lt h hfits hlt hj
    · exact (hm.disjoint_of_lt h hfits hlt hi).symm
  covers := by
    ext n
    simp only [Set.mem_iUnion, Finset.mem_range, exists_prop, Set.mem_Iio]
    exact hm.mem_cipherRange h hfits

/-- The checks are made with sums and products that wrap: what they accept is a
regular file's exact geometry just when the ciphertext's widths and total fit. -/
theorem exactGeometry_iff (h : validateFileManifest m = .ok ()) :
    ExactGeometry m ↔ m.kind = .file ∧ Fits m := by
  constructor
  · intro hexact
    have hkind : m.kind = .file := by
      by_contra hkind
      have hcount := hexact.count
      rw [symlink_of_accepted h hkind, plainChunks, UInt64.toNat_zero] at hcount
      omega
    have hm := regularFile_of_accepted h hkind
    have hwidth : m.plaintextChunkSize.toNat + envelopeOverhead.toNat < 2 ^ 64 := by
      rw [← hexact.width]
      exact m.ciphertextChunkSize.toNat_lt
    have htotal : m.size.toNat + m.chunkCount.toNat * envelopeOverhead.toNat < 2 ^ 64 := by
      rw [← hm.sum_cipherLength h hwidth, hexact.cipher]
      exact m.ciphertextSize.toNat_lt
    exact ⟨hkind, hwidth, htotal⟩
  · rintro ⟨hkind, hfits⟩
    exact (regularFile_of_accepted h hkind).exact_of_fits h hfits

def twoChunks : FileManifest :=
  { profile := profileID, version := profileVersion, kind := .file, mode := 0o644, size := 8,
    storage := .list
    plaintextChunkSize := 4, ciphertextChunkSize := 58, ciphertextSize := 116, chunkCount := 2,
      linkTarget := [] }

theorem exactGeometry_iff_twoChunks :
    ExactGeometry twoChunks ↔ twoChunks.kind = .file ∧ Fits twoChunks :=
  exactGeometry_iff (by decide +kernel)

/-- A width so close to `2 ^ 64` that the overhead takes it to one. -/
def widthWrapped : FileManifest :=
  { profile := profileID, version := profileVersion, kind := .file, mode := 0o644, size := 10,
    storage := .raw
    plaintextChunkSize := 2 ^ 64 - 53, ciphertextChunkSize := 1, ciphertextSize := 64,
      chunkCount := 1, linkTarget := [] }

/-- Chunks of one byte whose ciphertexts together pass `2 ^ 64` several times. -/
def totalWrapped : FileManifest :=
  { profile := profileID, version := profileVersion, kind := .file, mode := 0o644, size := 2 ^ 62,
    storage := .list
    plaintextChunkSize := 1, ciphertextChunkSize := 55, ciphertextSize := 3 * 2 ^ 62,
      chunkCount := 2 ^ 62
    linkTarget := [] }

theorem wrapped_geometries :
    validateFileManifest widthWrapped = .ok () ∧ ¬ ExactGeometry widthWrapped ∧
      validateFileManifest totalWrapped = .ok () ∧ ¬ ExactGeometry totalWrapped := by
  have hwidth : validateFileManifest widthWrapped = .ok () := by decide +kernel
  have htotal : validateFileManifest totalWrapped = .ok () := by decide +kernel
  refine ⟨hwidth, fun hexact => ?_, htotal, fun hexact => ?_⟩
  · exact absurd hexact.width (by decide +kernel)
  · have hsum := (regularFile_of_accepted htotal rfl).sum_cipherLength htotal (by decide +kernel)
    rw [hexact.cipher] at hsum
    exact absurd hsum (by decide +kernel)

end exact


end MaltClient.EncryptedUnixFs
