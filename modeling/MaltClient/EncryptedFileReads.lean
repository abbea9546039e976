import MaltClient.EncryptedTree

/-! One file of an encrypted tree: what the builder stores for it, and how its
chunks and ranges of them are read back. -/

namespace MaltClient.EncryptedUnixFs

open GoText Checked Payloads Slices

variable {Key : Type} [Cipher Key]

structure Cipher.Correct (Key : Type) [Cipher Key] : Prop where
  opened_sealed : ∀ (key : Key) (nonce aad plaintext : List UInt8),
    Cipher.opened key nonce aad (Cipher.sealed key nonce aad plaintext) = some plaintext
  length_sealed : ∀ (key : Key) (nonce aad plaintext : List UInt8),
    (Cipher.sealed key nonce aad plaintext).length = plaintext.length + 16

section sealed

variable {ctx : BuildContext Key} {place : Place} {plaintext data : List UInt8}

def IsSealed (ctx : BuildContext Key) (place : Place) (plaintext data : List UInt8) : Prop :=
  ctx.epoch ≠ 0 ∧ ∃ nonce : Nonce, data = header place.kind ctx.epoch nonce ++
    Cipher.sealed (place.key ctx.bucketKey) nonce.bytes (envelopeAAD place.kind ctx.epoch
      place.context) plaintext

theorem envelopeOverhead_eq : envelopeOverhead.toNat = envelopeHeader + 16 := by decide

theorem toNat_envelopeOverhead : envelopeOverhead.toNat = 54 := by decide

theorem IsSealed.length (hcipher : Cipher.Correct Key) (h : IsSealed ctx place plaintext data) :
    data.length = plaintext.length + envelopeOverhead.toNat := by
  obtain ⟨-, nonce, rfl⟩ := h
  rw [List.length_append, length_header, hcipher.length_sealed, envelopeOverhead_eq]
  omega

theorem IsSealed.openAt (hcipher : Cipher.Correct Key) (h : IsSealed ctx place plaintext data)
    {keys : UInt32 → Except RestoreError Key} (hkeys : keys ctx.epoch = .ok ctx.bucketKey)
    {fileEpoch : Option UInt32} (hfile : ∀ e ∈ fileEpoch, e = ctx.epoch) :
    openAt keys place fileEpoch data = .ok (plaintext, ctx.epoch) := by
  obtain ⟨hepoch, nonce, rfl⟩ := h
  have hparse := @parseEnvelope_ok place.kind ctx.epoch nonce _ hepoch
    (Nat.le_add_left 16 _ |>.trans_eq (hcipher.length_sealed (place.key ctx.bucketKey) nonce.bytes
      (envelopeAAD place.kind ctx.epoch place.context) plaintext).symm)
  have hsame : ¬ ∃ e ∈ fileEpoch, ctx.epoch ≠ e := by
    rintro ⟨e, he, hne⟩
    exact hne (hfile e he).symm
  refine bind_eq_ok.mpr ⟨_, mapError_eq_ok.mpr hparse,
    bind_eq_ok.mpr ⟨(), reject_eq_ok.mpr (by simp), ?_⟩⟩
  refine bind_eq_ok.mpr ⟨(), reject_eq_ok.mpr hsame, bind_eq_ok.mpr ⟨_, hkeys, ?_⟩⟩
  refine bind_eq_ok.mpr ⟨_, hparse, bind_eq_ok.mpr ⟨(), reject_eq_ok.mpr (by simp), ?_⟩⟩
  exact bind_eq_ok.mpr ⟨_, required_eq_ok.mpr (hcipher.opened_sealed _ _ _ _), rfl⟩

variable {relative : GoString}

inductive SealedFrom (ctx : BuildContext Key) (relative : GoString) :
    Nat → List (List UInt8) → List (List UInt8) → Prop
  | nil (n : Nat) : SealedFrom ctx relative n [] []
  | cons {n : Nat} {p d : List UInt8} {ps ds : List (List UInt8)}
      (hd : IsSealed ctx (ctx.ids.chunk relative (UInt64.ofNat n)) p d)
      (hds : SealedFrom ctx relative (n + 1) ps ds) : SealedFrom ctx relative n (p :: ps) (d :: ds)

variable {ps ds : List (List UInt8)} {n : Nat}

theorem SealedFrom.length_eq (h : SealedFrom ctx relative n ps ds) :
    ds.length = ps.length := by
  induction h with
  | nil => rfl
  | cons _ _ ih => rw [List.length_cons, List.length_cons, ih]

theorem SealedFrom.length_flatten (hcipher : Cipher.Correct Key)
    (h : SealedFrom ctx relative n ps ds) :
    ds.flatten.length = ps.flatten.length + ps.length * envelopeOverhead.toNat := by
  induction h with
  | nil => simp
  | cons hd _ ih =>
    rw [List.flatten_cons, List.length_append, hd.length hcipher, ih, List.flatten_cons,
      List.length_append, List.length_cons]
    ring

theorem SealedFrom.get {i : Nat} {p : List UInt8} (h : SealedFrom ctx relative n ps ds)
    (hp : ps[i]? = some p) :
    ∃ d, ds[i]? = some d ∧ IsSealed ctx (ctx.ids.chunk relative (UInt64.ofNat (n + i))) p d := by
  induction h generalizing i with
  | nil => simp at hp
  | cons hd _ ih =>
    cases i with
    | zero =>
      cases hp
      exact ⟨_, rfl, hd⟩
    | succ i =>
      obtain ⟨e, he, hsealed⟩ := ih hp
      rw [Nat.add_right_comm] at hsealed
      exact ⟨e, he, hsealed⟩

theorem SealedFrom.chunked (hcipher : Cipher.Correct Key) {c : Nat}
    (h : SealedFrom ctx relative n ps ds) (hps : Chunked c ps) :
    Chunked (c + envelopeOverhead.toNat) ds := by
  induction h with
  | nil => cases hps
  | cons hd hds ih =>
    have hlength := hd.length hcipher
    cases hps with
    | last hpos hle =>
      cases hds with
      | nil => exact .last (by omega) (by omega)
    | cons hfull hps => exact .cons (by omega) (ih hps)

end sealed

section parts

def plainParts (c : Nat) (data : List UInt8) (n : Nat) : List (List UInt8) :=
  if data = [] ∧ n = 0 then [[]] else Slices.chunks c data

variable {c : Nat}

theorem flatten_plainParts (hc : 0 < c) (data : List UInt8) :
    (plainParts c data 0).flatten = data := by
  rw [plainParts]
  split_ifs with hempty
  · rw [hempty.1]
    rfl
  · exact flatten_chunks hc data

theorem length_plainParts (hc : 0 < c) (data : List UInt8) :
    (plainParts c data 0).length ≤ data.length + 1 := by
  rw [plainParts]
  split_ifs with hempty
  · simp
  · rw [length_chunks]
    exact Nat.le_succ_of_le (chunkCount_le hc data)

theorem chunked_plainParts (hc : 0 < c) {data : List UInt8} (h : (plainParts c data 0).length ≠ 1) :
    data ≠ [] ∧ Chunked c (plainParts c data 0) := by
  rw [plainParts] at h ⊢
  split_ifs at h ⊢ with hempty
  · exact absurd rfl h
  · have hne : data ≠ [] := fun hnil => hempty ⟨hnil, rfl⟩
    exact ⟨hne, chunked_chunks hc hne⟩

theorem expected_of_validate {m : ChunkMetadata} {count : UInt64} (h : m.validate count = .ok ()) :
    (0 < m.totalSize ∧ (m.totalSize - 1) / m.chunkSize + 1 = count) ∨
      (¬ 0 < m.totalSize ∧ count = 0) := by
  simp only [ChunkMetadata.validate, bind_eq_ok] at h
  obtain ⟨_, -, h⟩ := h
  have hexpected := not_not.mp (reject_eq_ok.mp h)
  by_cases hpos : 0 < m.totalSize
  · rw [if_pos hpos] at hexpected
    exact .inl ⟨hpos, hexpected⟩
  · rw [if_neg hpos] at hexpected
    exact .inr ⟨hpos, hexpected.symm⟩

/-- The metadata of a list cannot be made for a total that wraps: the number of
chunks would not be that of the chunk size. -/
theorem total_lt_of_validate {k total : Nat} (hc : 0 < c) (hc' : c < 2 ^ 63) (hk : 0 < k)
    (hk' : k < 2 ^ 64) (hlow : (k - 1) * c < total) (hhigh : total ≤ k * c)
    (h : (geometry c total).validate (UInt64.ofNat k) = .ok ()) : total < 2 ^ 64 := by
  by_contra hover
  have hwidth : (UInt64.ofNat c).toNat = c := toNat_ofNat (by omega)
  have hcount : (UInt64.ofNat k).toNat = k := toNat_ofNat hk'
  have hwrapped : (UInt64.ofNat total).toNat = total % 2 ^ 64 := UInt64.toNat_ofNat'
  rcases expected_of_validate h with ⟨hpos, h⟩ | ⟨-, h⟩
  · change 0 < UInt64.ofNat total at hpos
    change (UInt64.ofNat total - 1) / UInt64.ofNat c + 1 = UInt64.ofNat k at h
    rw [UInt64.lt_iff_toNat_lt, hwrapped, UInt64.toNat_zero] at hpos
    have hlast : (UInt64.ofNat total - 1).toNat = total % 2 ^ 64 - 1 := by
      rw [toNat_sub (by rw [hwrapped, UInt64.toNat_one]; exact hpos), hwrapped, UInt64.toNat_one]
    have hdiv : ((UInt64.ofNat total - 1) / UInt64.ofNat c).toNat = (total % 2 ^ 64 - 1) / c := by
      rw [UInt64.toNat_div, hlast, hwidth]
    have hle := Nat.div_le_self (total % 2 ^ 64 - 1) c
    have hexpected := congrArg UInt64.toNat h
    rw [toNat_add (by rw [hdiv, UInt64.toNat_one]; omega), hdiv, UInt64.toNat_one, hcount]
      at hexpected
    have hbelow : (k - 1) * c ≤ total % 2 ^ 64 - 1 := by
      rw [← Nat.le_div_iff_mul_le hc]
      omega
    have hsplit : k * c = (k - 1) * c + c := by
      obtain ⟨n, rfl⟩ := Nat.exists_eq_add_of_le' hk
      rw [Nat.add_sub_cancel, Nat.succ_mul]
    omega
  · have hzero := congrArg UInt64.toNat h
    rw [hcount, UInt64.toNat_zero] at hzero
    omega

end parts

variable [CidFormat] [PayloadHash]

section stores

variable {host : Host} {ctx : BuildContext Key} {place : Place} {plaintext data : List UInt8}
  {s s' : Build} {key : Cid}

def Keeps (blocks blocks' : Blocks) : Prop := ∀ d, Holds blocks d → Holds blocks' d

theorem Keeps.refl (blocks : Blocks) : Keeps blocks blocks := fun _ h => h

theorem Keeps.trans {blocks blocks' blocks'' : Blocks} (h : Keeps blocks blocks')
    (h' : Keeps blocks' blocks'') : Keeps blocks blocks'' := fun d hd => h' d (h d hd)

omit [PayloadHash] in
theorem sealNext_eq_ok (h : sealNext host ctx place plaintext s = .ok (data, s')) :
    IsSealed ctx place plaintext data ∧ s'.blocks = s.blocks := by
  simp only [sealNext, ok_iff, Prod.mk.injEq] at h
  obtain ⟨sealed, hsealed, rfl, rfl⟩ := h
  obtain ⟨hepoch, nonce, -, hdata⟩ := sealEnvelope_eq_ok hsealed
  exact ⟨⟨hepoch, nonce, hdata⟩, rfl⟩

theorem putVerified_eq_ok (hinj : Function.Injective rawCid)
    (h : putVerified data s = .ok (key, s')) :
    key = rawCid data ∧ Holds s'.blocks data ∧ Keeps s.blocks s'.blocks := by
  simp only [putVerified, ok_iff] at h
  obtain ⟨⟨blocks, key'⟩, hput, _, -, heq⟩ := h
  cases heq
  exact put_eq_ok hinj hput

end stores

section chunks

variable {host : Host} {ctx : BuildContext Key} {relative : GoString}

structure Extends (ctx : BuildContext Key) (relative : GoString) (a a' : FileBuild) (n : Nat)
    (parts ds : List (List UInt8)) : Prop where
  sealed : SealedFrom ctx relative n parts ds
  chunks : a'.chunks = a.chunks ++ ds.map rawCid
  held : ∀ d ∈ ds, Holds a'.build.blocks d
  keeps : Keeps a.build.blocks a'.build.blocks
  total : a'.totalCipher = a.totalCipher + UInt64.ofNat ds.flatten.length

variable {n : Nat} {a a' : FileBuild}

theorem sealChunk_eq_ok (hinj : Function.Injective rawCid) {chunk : List UInt8}
    (hn : a.index = UInt64.ofNat n) (h : sealChunk host ctx relative chunk a = .ok a') :
    a'.index = UInt64.ofNat (n + 1) ∧ ∃ d, Extends ctx relative a a' n [chunk] [d] := by
  simp only [sealChunk, ok_iff] at h
  obtain ⟨⟨sealed, s₁⟩, hseal, ⟨key, s₂⟩, hput, rfl⟩ := h
  obtain ⟨hsealed, hblocks⟩ := sealNext_eq_ok hseal
  obtain ⟨rfl, hheld, hkeeps⟩ := putVerified_eq_ok hinj hput
  rw [hblocks] at hkeeps
  refine ⟨?_, sealed, ⟨.cons (hn ▸ hsealed) (.nil _), rfl, by simpa using hheld, hkeeps, by simp⟩⟩
  rw [hn, UInt64.ofNat_add]
  rfl

theorem Extends.nil (a : FileBuild) (n : Nat) : Extends ctx relative a a n [] [] :=
  ⟨.nil n, by simp, by simp, Keeps.refl _, by simp⟩

theorem Extends.cons {a a' a'' : FileBuild} {n : Nat} {p d : List UInt8}
    {parts ds : List (List UInt8)}
    (h : Extends ctx relative a a' n [p] [d]) (h' : Extends ctx relative a' a'' (n + 1) parts ds) :
    Extends ctx relative a a'' n (p :: parts) (d :: ds) := by
  cases h.sealed with
  | cons hd _ =>
    refine ⟨.cons hd h'.sealed, by rw [h'.chunks, h.chunks]; simp, ?_, h.keeps.trans h'.keeps, ?_⟩
    · intro e he
      rcases List.mem_cons.mp he with rfl | he
      · exact h'.keeps _ (h.held _ (by simp))
      · exact h'.held e he
    · rw [h'.total, h.total, List.flatten_singleton, List.flatten_cons, List.length_append,
        UInt64.ofNat_add]
      grind

/-- The loop stores the parts of the file in order. The induction is on the
rounds; the chunks stored before count from the start of the file. -/
theorem sealChunks_eq_ok (hinj : Function.Injective rawCid) {c : Nat} (hc : 0 < c) {fails : Bool}
    {rounds : Nat} {data : List UInt8} (hn : a.index = UInt64.ofNat n)
    (hbound : n + data.length < 2 ^ 64)
    (h : sealChunks host ctx c relative fails rounds data a = .ok a') :
    ∃ ds, Extends ctx relative a a' n (plainParts c data n) ds := by
  induction rounds generalizing n data a with
  | zero => exact absurd h throw_ne_ok
  | succ rounds ih =>
    rw [sealChunks] at h
    by_cases hend : data.length < c
    · rw [if_pos hend] at h
      simp only [bind_eq_ok] at h
      obtain ⟨_, -, h⟩ := h
      have hfirst : a.index = 0 ↔ n = 0 := by
        rw [hn, ← UInt64.toNat_inj, toNat_ofNat (by omega)]
        rfl
      by_cases hlast : data ≠ [] ∨ a.index = 0
      · rw [if_pos hlast] at h
        have hparts : plainParts c data n = [data] := by
          rw [hfirst] at hlast
          rw [plainParts]
          split_ifs with hempty
          · rw [hempty.1]
          · have hne : data ≠ [] := fun hnil => hempty ⟨hnil, hlast.resolve_left (not_not.mpr hnil)⟩
            exact chunks_of_le hc hne hend.le
        obtain ⟨-, d, hd⟩ := sealChunk_eq_ok hinj hn h
        exact ⟨[d], hparts ▸ hd⟩
      · rw [if_neg hlast] at h
        obtain rfl := pure_eq_ok.mp h
        rw [not_or, not_not, hfirst] at hlast
        have hparts : plainParts c data n = [] := by
          rw [plainParts, if_neg (fun hempty => hlast.2 hempty.2), hlast.1, chunks_nil]
        rw [hparts]
        exact ⟨[], Extends.nil a n⟩
    · rw [if_neg hend] at h
      simp only [bind_eq_ok] at h
      obtain ⟨a₁, hchunk, hrest⟩ := h
      have hne : data ≠ [] := List.ne_nil_of_length_pos (by omega)
      obtain ⟨hindex, d, hd⟩ := sealChunk_eq_ok hinj hn hchunk
      obtain ⟨ds, hds⟩ := ih hindex (by rw [List.length_drop]; omega) hrest
      have hparts : plainParts c data n = data.take c :: plainParts c (data.drop c) (n + 1) := by
        rw [plainParts, if_neg (fun hempty => hne hempty.1), plainParts, if_neg (by simp),
          chunks_cons hc hne]
      exact ⟨d :: ds, hparts ▸ hd.cons hds⟩

end chunks

section files

variable {host : Host} {ctx : BuildContext Key} {relative : GoString}

variable [ChunkJson]

inductive ContentOf (blocks : Blocks) (c : Nat) : List (List UInt8) → Storage → Target → Prop
  | raw (d : List UInt8) : ContentOf blocks c [d] .raw (.block (rawCid d))
  | list {ds : List (List UInt8)} (hmany : ds.length ≠ 1)
      (hmetadata : Holds blocks (ChunkJson.marshal (geometry c ds.flatten.length)))
      (hvalid : (geometry c ds.flatten.length).validate (UInt64.ofNat ds.length) = .ok ()) :
      ContentOf blocks c ds .list (.positional (ds.map rawCid) (metadataKey c ds.flatten.length))

variable {content : Target} {storage : Storage} {ds : List (List UInt8)} {c : Nat} {s s' : Build}

theorem ContentOf.keeps {blocks blocks' : Blocks}
    (h : ContentOf blocks c ds storage content) (hkeeps : Keeps blocks blocks') :
    ContentOf blocks' c ds storage content := by
  cases h with
  | raw d => exact .raw d
  | list hmany hmetadata hvalid => exact .list hmany (hkeeps _ hmetadata) hvalid

theorem storeContent_eq_ok (hinj : Function.Injective rawCid)
    (h : storeContent host (UInt64.ofNat ds.flatten.length) (UInt64.ofNat c) (ds.map rawCid) s =
      .ok (content, storage, s')) :
    ContentOf s'.blocks c ds storage content ∧ Keeps s.blocks s'.blocks := by
  match ds with
  | [] => exact absurd h throw_ne_ok
  | [d] =>
    obtain ⟨rfl, hrest⟩ := Prod.mk.inj (Except.ok.inj h)
    cases hrest
    exact ⟨.raw d, Keeps.refl _⟩
  | d :: e :: ds =>
    simp only [storeContent, List.map_cons, ok_iff] at h
    obtain ⟨metadata, hencode, ⟨blocks, payload⟩, hput, _, -, _, -, heq⟩ := h
    cases heq
    obtain ⟨rfl, hheld, hkeeps⟩ := put_eq_ok hinj hput
    simp only [encodeChunkMetadata, ok_iff] at hencode
    obtain ⟨_, hvalid, rfl⟩ := hencode
    rw [← List.map_cons, ← List.map_cons, List.length_map] at hvalid
    exact ⟨.list (by simp) hheld hvalid, hkeeps⟩

/-- A regular file as it is stored: its manifest, the envelopes of its parts and
where they are. -/
structure StoredFile (ctx : BuildContext Key) (blocks : Blocks) (relative : GoString)
    (data : List UInt8) (m : FileManifest) (content : Target) : Prop where
  accepted : validateFileManifest m = .ok ()
  kind : m.kind = .file
  width : m.plaintextChunkSize.toNat < 2 ^ 32
  fits : Fits m
  size : m.size.toNat = data.length
  envelopes : ∃ ds, SealedFrom ctx relative 0 (plainParts m.plaintextChunkSize.toNat data 0) ds ∧
    (∀ d ∈ ds, Holds blocks d) ∧ ContentOf blocks m.ciphertextChunkSize.toNat ds m.storage content

variable [ManifestJson]

omit [ChunkJson] in
theorem storeFileManifest_eq_ok (hinj : Function.Injective rawCid) {m : FileManifest} {key : Cid}
    (h : storeFileManifest host ctx relative m s = .ok (key, s')) :
    Keeps s.blocks s'.blocks ∧ ∃ d, IsSealed ctx (ctx.ids.file relative)
      (ManifestJson.encodeFile m) d ∧ key = rawCid d ∧ Holds s'.blocks d := by
  simp only [storeFileManifest, bind_eq_ok] at h
  obtain ⟨⟨d, s₁⟩, hseal, hput⟩ := h
  obtain ⟨hsealed, hblocks⟩ := sealNext_eq_ok hseal
  obtain ⟨hkey, hheld, hkeeps⟩ := putVerified_eq_ok hinj hput
  rw [hblocks] at hkeeps
  exact ⟨hkeeps, d, hsealed, hkey, hheld⟩

section manifest

variable {b : Builder} {file : SourceFile} {storage : Storage} {a : FileBuild}
  {ds : List (List UInt8)}

omit [CidFormat] [PayloadHash] [ChunkJson] [ManifestJson] in
theorem Builder.width_lt (b : Builder) : b.chunkSize + envelopeOverhead.toNat < 2 ^ 32 := by
  have hbound := b.bounded
  rw [toNat_envelopeOverhead] at hbound ⊢
  omega

omit [PayloadHash] [ChunkJson] [ManifestJson] in
theorem toNat_fileManifest (b : Builder) (file : SourceFile) (storage : Storage) (a : FileBuild) :
    (fileManifest b file storage a).plaintextChunkSize.toNat = b.chunkSize ∧
      (fileManifest b file storage a).ciphertextChunkSize.toNat = b.chunkSize +
        envelopeOverhead.toNat ∧
      (fileManifest b file storage a).size.toNat = file.size := by
  have hbound := b.width_lt
  have hsize := file.size_lt
  exact ⟨toNat_ofNat (by omega), toNat_ofNat (by omega), toNat_ofNat (by omega)⟩

omit [ChunkJson] [ManifestJson] in
theorem length_of_accepted (hcipher : Cipher.Correct Key) (hchunks : a.chunks = ds.map rawCid)
    (htotal : a.totalCipher = UInt64.ofNat ds.flatten.length)
    (hsealed : SealedFrom ctx relative 0 (plainParts b.chunkSize file.data 0) ds)
    (haccepted : validateFileManifest (fileManifest b file storage a) = .ok ()) :
    file.data.length = file.size := by
  have hm := regularFile_of_accepted haccepted rfl
  have hcipherSize : UInt64.ofNat ds.flatten.length =
      UInt64.ofNat file.size + UInt64.ofNat ds.length * envelopeOverhead := by
    have hcount : (fileManifest b file storage a).chunkCount = UInt64.ofNat ds.length := by
      rw [fileManifest, hchunks, List.length_map]
    have hsum := hm.ciphertextSize_eq
    rw [hcount] at hsum
    exact htotal.symm.trans hsum
  rw [hsealed.length_flatten hcipher, flatten_plainParts b.positive, hsealed.length_eq,
    UInt64.ofNat_add, UInt64.ofNat_mul, UInt64.ofNat_toNat] at hcipherSize
  have hsame : UInt64.ofNat file.data.length = UInt64.ofNat file.size := by grind
  have hnumbers := congrArg UInt64.toNat hsame
  have hdata := file.data_lt
  have hsize := file.size_lt
  rwa [toNat_ofNat (by omega), toNat_ofNat (by omega)] at hnumbers

omit [ManifestJson] in
theorem fits_of_accepted (hcipher : Cipher.Correct Key) (hchunks : a.chunks = ds.map rawCid)
    (htotal : a.totalCipher = UInt64.ofNat ds.flatten.length)
    (hsealed : SealedFrom ctx relative 0 (plainParts b.chunkSize file.data 0) ds) {blocks : Blocks}
    {content : Target}
    (hcontent : ContentOf blocks (b.chunkSize + envelopeOverhead.toNat) ds storage content)
    (haccepted : validateFileManifest (fileManifest b file storage a) = .ok ()) :
    Fits (fileManifest b file storage a) := by
  obtain ⟨hwidth, -, hsize⟩ := toNat_fileManifest b file storage a
  have hlength := length_of_accepted hcipher hchunks htotal hsealed haccepted
  have hbound := b.width_lt
  have hdata := file.data_lt
  have hparts := length_plainParts b.positive file.data
  have hds := hsealed.length_eq
  have hcount : (fileManifest b file storage a).chunkCount.toNat = ds.length := by
    rw [fileManifest, hchunks, List.length_map, toNat_ofNat (by omega)]
  have hsum : ds.flatten.length = file.size + ds.length * envelopeOverhead.toNat := by
    rw [hsealed.length_flatten hcipher, flatten_plainParts b.positive, hds, hlength]
  refine ⟨by rw [hwidth]; omega, ?_⟩
  rw [hsize, hcount, ← hsum]
  cases hcontent with
  | raw d =>
    rw [List.length_singleton, Nat.one_mul] at hsum
    omega
  | list hmany _ hvalid =>
    have hchunked := hsealed.chunked hcipher (chunked_plainParts b.positive (hds ▸ hmany)).2
    obtain ⟨hlow, hhigh⟩ := hchunked.length_flatten
    have hpos := b.positive
    exact total_lt_of_validate (by omega)
      (by omega) hchunked.length_pos (by omega) hlow hhigh hvalid

end manifest

theorem buildFile_eq_ok (hinj : Function.Injective rawCid) (hcipher : Cipher.Correct Key)
    {b : Builder} {file : SourceFile} {root : Target}
    (h : buildFile host ctx b relative file s = .ok (root, s')) :
    Keeps s.blocks s'.blocks ∧ file.data.length = file.size ∧ ∃ m content d,
      root = .map [(payloadLabel, .block (rawCid d)), (contentLabel, content)] ∧
        m.mode = file.mode ∧
      IsSealed ctx (ctx.ids.file relative) (ManifestJson.encodeFile m) d ∧ Holds s'.blocks d ∧
      StoredFile ctx s'.blocks relative file.data m content := by
  simp only [buildFile, ok_iff] at h
  obtain ⟨_, -, a, hseal, ⟨content, storage, s₁⟩, hcontent, _, haccepted, ⟨key, s₂⟩, hstore, root',
    hroot, heq⟩ := h
  cases heq
  have hdata := file.data_lt
  obtain ⟨ds, hds⟩ := sealChunks_eq_ok (n := 0) hinj b.positive rfl (by omega) hseal
  have hchunks : a.chunks = ds.map rawCid := hds.chunks
  have htotal : a.totalCipher = UInt64.ofNat ds.flatten.length := by
    rw [hds.total]
    exact UInt64.zero_add _
  rw [hchunks, htotal] at hcontent
  obtain ⟨hcontent, hkeeps⟩ := storeContent_eq_ok hinj hcontent
  obtain ⟨hkeeps', d, hd, rfl, hheld⟩ := storeFileManifest_eq_ok hinj hstore
  simp only [createStagedRoot, ok_iff] at hroot
  obtain ⟨_, -, rfl⟩ := hroot
  obtain ⟨hwidth, hcipherWidth, hsize⟩ := toNat_fileManifest b file storage a
  have hlength := length_of_accepted hcipher hchunks htotal hds.sealed haccepted
  have hbound := b.width_lt
  refine ⟨hds.keeps.trans (hkeeps.trans hkeeps'), hlength, fileManifest b file storage a, content,
    d, rfl, rfl, hd, hheld, ?_⟩
  exact
    { accepted := haccepted
      kind := rfl
      width := by rw [hwidth]; omega
      fits := fits_of_accepted hcipher hchunks htotal hds.sealed hcontent haccepted
      size := by rw [hsize, hlength]
      envelopes :=
        ⟨ds, by rw [hwidth]; exact hds.sealed, fun e he => hkeeps' e (hkeeps e (hds.held e he)),
        by rw [hcipherWidth]; exact hcontent.keeps hkeeps'⟩ }

end files

section reads

variable {ctx : BuildContext Key} {relative : GoString} {data : List UInt8} {m : FileManifest}

variable {c i : Nat} {p : List UInt8}

omit [CidFormat] [PayloadHash] in
theorem length_plainParts_eq (hc : 0 < c) (data : List UInt8) :
    (plainParts c data 0).length = plainChunks data.length c := by
  rw [plainParts, plainChunks]
  by_cases hnil : data = []
  · rw [if_pos ⟨hnil, rfl⟩, hnil, List.length_nil, Nat.zero_add, Nat.div_eq_of_lt (by omega)]
    rfl
  · have hpos := List.length_pos_of_ne_nil hnil
    have hone : 1 ≤ (data.length + c - 1) / c := Nat.div_pos (by omega) hc
    rw [if_neg (fun hempty => hnil hempty.1), length_chunks, chunkCount, Nat.max_eq_right hone]

omit [CidFormat] [PayloadHash] in
theorem length_of_part (hm : RegularFile m) (haccepted : validateFileManifest m = .ok ())
    (hsize : m.size.toNat = data.length)
    (hp : (plainParts m.plaintextChunkSize.toNat data 0)[i]? = some p) :
    i < m.chunkCount.toNat ∧ p.length = plainLength m i := by
  have hcount := hm.toNat_chunkCount
  rw [hsize, ← length_plainParts_eq hm.width] at hcount
  have hi : i < m.chunkCount.toNat := by
    rw [hcount]
    exact (List.getElem?_eq_some_iff.mp hp).1
  have hfile := hm.size_eq
  have hlast := hm.last_le
  rw [hsize] at hfile
  refine ⟨hi, ?_⟩
  rw [plainLength_eq haccepted hi]
  by_cases hnil : data = []
  · have hparts :
      plainParts m.plaintextChunkSize.toNat data 0 = [[]] := by rw [plainParts, if_pos ⟨hnil, rfl⟩]
    rw [hparts] at hp hcount
    obtain ⟨hzero, hvalue⟩ := List.getElem?_eq_some_iff.mp hp
    have hi0 : i = 0 := by simpa using hzero
    subst hi0
    rw [hcount, if_neg (by simp), ← hvalue]
    rw [hnil, List.length_nil] at hfile
    simp only [List.getElem_cons_zero, List.length_nil]
    omega
  · have hparts : plainParts m.plaintextChunkSize.toNat data 0 =
      Slices.chunks m.plaintextChunkSize.toNat data := by
      rw [plainParts, if_neg (fun hempty => hnil hempty.1)]
    rw [hparts, length_chunks] at hcount
    rw [hparts, getElem?_chunks (hcount ▸ hi)] at hp
    rw [← Option.some.inj hp, length_chunk]
    by_cases hnext : i + 1 < m.chunkCount.toNat
    · have hfull :
        (i + 1) * m.plaintextChunkSize.toNat ≤ (m.chunkCount.toNat - 1) *
          m.plaintextChunkSize.toNat :=
        Nat.mul_le_mul_right _ (by omega)
      rw [Nat.succ_mul] at hfull
      rw [if_pos hnext]
      omega
    · have hend : m.chunkCount.toNat - 1 = i := by omega
      rw [hend] at hfile
      rw [if_neg hnext]
      omega

variable [ChunkJson] [InlineBody] {blocks : Blocks} {keys : UInt32 → Except RestoreError Key}
  {content : Target}

variable {left k : Nat} {offset length : UInt64}

omit [CidFormat] [PayloadHash] [ChunkJson] [InlineBody] in
theorem chunkPlaintextLength_part (hm : RegularFile m) (haccepted : validateFileManifest m = .ok ())
    (hsize : m.size.toNat = data.length)
    (hp : (plainParts m.plaintextChunkSize.toNat data 0)[i]? = some p) :
    chunkPlaintextLength m (UInt64.ofNat i) = .ok (UInt64.ofNat p.length) := by
  obtain ⟨hi, hlength⟩ := length_of_part hm haccepted hsize hp
  have hvalue := chunkPlaintextLength_ok haccepted hi
  rw [plainLength, hvalue] at hlength
  rw [hvalue, hlength, natural, UInt64.ofNat_toNat]

theorem readTypedRange_chunk (hinj : Function.Injective rawCid) {ds : List (List UInt8)}
    (hc : 0 < c) (hc' : c < 2 ^ 63) (hchunked : Chunked c ds) (hsize : ds.flatten.length < 2 ^ 64)
    (hheld : ∀ d ∈ ds, Holds blocks d)
    (hmetadata : Holds blocks (ChunkJson.marshal (geometry c ds.flatten.length)))
    {d : List UInt8} (hd : ds[i]? = some d) :
    ∃ part, readTypedRange blocks (ds.map rawCid) (metadataKey c ds.flatten.length)
      (UInt64.ofNat (i * c))
        (some (UInt64.ofNat d.length)) none = .ok part ∧ part.offset = UInt64.ofNat (i * c) ∧
          part.body = d ∧
      part.totalSize.toNat = ds.flatten.length ∧ part.chunkSize = UInt64.ofNat c := by
  have hchunks := hchunked.chunks_flatten hc
  have hpos := hchunked.length_flatten_pos hc
  have hkeys : chunkKeys c ds.flatten = ds.map rawCid := by rw [chunkKeys, hchunks]
  have hi : i < chunkCount c ds.flatten := by
    rw [← length_chunks, hchunks]
    exact (List.getElem?_eq_some_iff.mp hd).1
  have hvalue : chunk c ds.flatten i = d := by
    have hget := getElem?_chunks hi
    rw [hchunks, hd] at hget
    exact (Option.some.inj hget).symm
  have hbelow : i * c < ds.flatten.length := by
    rw [chunkCount_eq hc hpos] at hi
    exact mul_lt_of_lt_lastIndex hc hpos hi
  have hlength := length_chunk c ds.flatten i
  rw [hvalue] at hlength
  obtain ⟨part, hpart, hanswers⟩ := readTypedRange_spec hinj hc hc' hpos hsize (hchunks.symm ▸
    hheld) hmetadata
    (show ∀ data, (none : Option (List UInt8)) = some data → _ by simp) (UInt64.ofNat (i * c))
    (some (UInt64.ofNat d.length))
  have hwidth := chunkSize_of_readTypedRange hc hc' hpos hsize hmetadata (by simp) hpart
  have hoffset : (UInt64.ofNat (i * c)).toNat = i * c := toNat_ofNat (by omega)
  have hcount : (UInt64.ofNat d.length).toNat = d.length := toNat_ofNat (by omega)
  rw [hkeys] at hpart
  refine ⟨part, hpart, hanswers.starts, ?_, hanswers.total, hwidth⟩
  have hstop :
    stopOf ds.flatten.length (i * c) (some d.length) = min (i * c + c) ds.flatten.length := by
    rw [stopOf, if_neg (by omega)]
    omega
  rw [hanswers.bytes, Option.map_some, hoffset, hcount, hstop]
  exact hvalue

theorem StoredFile.readSealed (hinj : Function.Injective rawCid) (hcipher : Cipher.Correct Key)
    (h : StoredFile ctx blocks relative data m content)
    (hp : (plainParts m.plaintextChunkSize.toNat data 0)[i]? = some p) :
    ∃ d, IsSealed ctx (ctx.ids.chunk relative (UInt64.ofNat i)) p d ∧
      Reader.readSealed blocks ⟨some content, ctx.epoch, m, relative⟩ (UInt64.ofNat i)
        (UInt64.ofNat d.length) = .ok d := by
  have hm := regularFile_of_accepted h.accepted h.kind
  obtain ⟨ds, hsealed, hheld, hcontent⟩ := h.envelopes
  obtain ⟨hi, -⟩ := length_of_part hm h.accepted h.size hp
  obtain ⟨d, hd, hplace⟩ := hsealed.get hp
  rw [Nat.zero_add] at hplace
  refine ⟨d, hplace, ?_⟩
  unfold Reader.readSealed
  generalize m.storage = storage at hcontent
  cases hcontent with
  | raw e =>
    have hzero : i = 0 := by
      have hlt := (List.getElem?_eq_some_iff.mp hd).1
      rw [List.length_singleton] at hlt
      omega
    subst hzero
    cases hd
    refine bind_eq_ok.mpr ⟨(), reject_eq_ok.mpr (by simp),
      bind_eq_ok.mpr ⟨_, rfl, mapError_eq_ok.mpr ?_⟩⟩
    exact getBoundBlock_of_holds (hheld _ (by simp))
  | list hmany hmetadata _ =>
    have hchunked :=
      hsealed.chunked hcipher (chunked_plainParts hm.width (hsealed.length_eq ▸ hmany)).2
    have hlength := hsealed.length_flatten hcipher
    have hparts := length_plainParts_eq hm.width data
    have htotal := hm.toNat_ciphertextSize h.fits
    have hcipherWidth := hm.toNat_ciphertextChunkSize h.fits
    rw [flatten_plainParts hm.width, hparts, ← h.size, ← hm.toNat_chunkCount, ← htotal] at hlength
    rw [← hcipherWidth] at hchunked
    have hwidth := h.width
    have hpos := hm.width
    have hoffset : chunkOffset m (UInt64.ofNat i) =
      .ok (UInt64.ofNat (i * m.ciphertextChunkSize.toNat)) := by
      rw [chunkOffset_ok hi, UInt64.ofNat_mul, UInt64.ofNat_toNat]
    obtain ⟨part, hpart, hstart, hbody, hsum, hchunk⟩ := readTypedRange_chunk hinj (by omega)
      (by rw [hcipherWidth, toNat_envelopeOverhead]; omega) hchunked
        (by rw [hlength]; exact m.ciphertextSize.toNat_lt)
      hheld hmetadata hd
    refine bind_eq_ok.mpr ⟨_, hoffset, bind_eq_ok.mpr ⟨part, mapError_eq_ok.mpr hpart, ?_⟩⟩
    refine bind_eq_ok.mpr ⟨(), reject_eq_ok.mpr ?_, congrArg Except.ok hbody⟩
    rw [UInt64.ofNat_toNat] at hchunk
    rw [hlength, UInt64.toNat_inj] at hsum
    simp [hstart, hbody, hsum, hchunk]

theorem StoredFile.readChunk (hinj : Function.Injective rawCid) (hcipher : Cipher.Correct Key)
    (h : StoredFile ctx blocks relative data m content) (hkeys : keys ctx.epoch = .ok ctx.bucketKey)
    (hp : (plainParts m.plaintextChunkSize.toNat data 0)[i]? = some p) :
    Reader.readChunk blocks keys ctx.ids ⟨some content, ctx.epoch, m, relative⟩ (UInt64.ofNat i) =
      .ok p := by
  have hm := regularFile_of_accepted h.accepted h.kind
  have hplain := chunkPlaintextLength_part hm h.accepted h.size hp
  obtain ⟨d, hsealed, hread⟩ := h.readSealed hinj hcipher hp
  have hcipherLength : chunkCiphertextLength m (UInt64.ofNat i) = .ok (UInt64.ofNat d.length) := by
    rw [chunkCiphertextLength, hplain, hsealed.length hcipher, UInt64.ofNat_add, UInt64.ofNat_toNat]
    rfl
  have hopen := hsealed.openAt hcipher hkeys (show ∀ e ∈ some ctx.epoch, e = ctx.epoch by simp)
  refine bind_eq_ok.mpr ⟨_, hcipherLength,
    bind_eq_ok.mpr ⟨d, hread, bind_eq_ok.mpr ⟨(), reject_eq_ok.mpr (by simp), ?_⟩⟩⟩
  exact bind_eq_ok.mpr ⟨_, hopen,
    bind_eq_ok.mpr ⟨_, hplain, bind_eq_ok.mpr ⟨(), reject_eq_ok.mpr (by simp), rfl⟩⟩⟩

omit [InlineBody] in
theorem StoredFile.length_parts (h : StoredFile ctx blocks relative data m content) :
    (plainParts m.plaintextChunkSize.toNat data 0).length = m.chunkCount.toNat := by
  have hm := regularFile_of_accepted h.accepted h.kind
  rw [length_plainParts_eq hm.width, ← h.size, ← hm.toNat_chunkCount]

theorem StoredFile.readChunks (hinj : Function.Injective rawCid) (hcipher : Cipher.Correct Key)
    (h : StoredFile ctx blocks relative data m content) (hkeys : keys ctx.epoch = .ok ctx.bucketKey)
    {n : Nat}
    (hn : n + left = m.chunkCount.toNat) :
    Reader.readChunks blocks keys ctx.ids ⟨some content, ctx.epoch, m, relative⟩ left
      (UInt64.ofNat n) = .ok ((plainParts m.plaintextChunkSize.toNat data 0).drop n).flatten := by
  have hparts := h.length_parts
  induction left generalizing n with
  | zero =>
    rw [List.drop_of_length_le (by omega), List.flatten_nil]
    rfl
  | succ left ih =>
    have hlt : n < (plainParts m.plaintextChunkSize.toNat data 0).length := by omega
    have hchunk := h.readChunk hinj hcipher hkeys (List.getElem?_eq_getElem hlt)
    have hrest := ih (show n + 1 + left = m.chunkCount.toNat by omega)
    rw [UInt64.ofNat_add] at hrest
    rw [List.drop_eq_getElem_cons hlt, List.flatten_cons]
    exact bind_eq_ok.mpr ⟨_, hchunk, bind_eq_ok.mpr ⟨_, hrest, rfl⟩⟩

omit [CidFormat] [PayloadHash] [ChunkJson] [InlineBody] in
theorem bytesBetween_part {chunkStart : UInt64} (hstart : chunkStart.toNat = k * c)
    (hsum : (offset + length).toNat = offset.toNat + length.toNat) (hpos : 0 < length.toNat)
    (hstop : offset.toNat + length.toNat ≤ data.length)
    (hbelow : k * c < offset.toNat + length.toNat)
    (hoffset : offset.toNat < k * c + c) (hdata : data.length < 2 ^ 64) :
    bytesBetween (chunk c data k) (if offset > chunkStart then offset - chunkStart else 0)
        (if offset + length < chunkStart + UInt64.ofNat (chunk c data k).length
          then offset + length - chunkStart
          else UInt64.ofNat (chunk c data k).length) =
      .ok (slice data (max offset.toNat (k * c))
        (min (k * c + c) (offset.toNat + length.toNat))) := by
  have hlength := length_chunk c data k
  have hsize : (UInt64.ofNat (chunk c data k).length).toNat = (chunk c data k).length :=
    toNat_ofNat (by omega)
  have hend : (chunkStart + UInt64.ofNat (chunk c data k).length).toNat =
      k * c + (chunk c data k).length := by
    rw [toNat_add (by rw [hstart, hsize]; omega), hstart, hsize]
  have hfirst :
    (if offset > chunkStart then offset - chunkStart else 0).toNat = offset.toNat - k * c := by
    split_ifs with hover
    · rw [gt_iff_lt, UInt64.lt_iff_toNat_lt, hstart] at hover
      rw [toNat_sub (by omega), hstart]
    · rw [gt_iff_lt, UInt64.lt_iff_toNat_lt, hstart] at hover
      exact (Nat.sub_eq_zero_of_le (not_lt.mp hover)).symm
  have hlast : (if offset + length < chunkStart + UInt64.ofNat (chunk c data k).length
    then offset + length - chunkStart
      else UInt64.ofNat (chunk c data k).length).toNat = min (k * c + c)
        (offset.toNat + length.toNat) - k * c := by
    split_ifs with hinside
    · rw [UInt64.lt_iff_toNat_lt, hsum, hend] at hinside
      rw [toNat_sub (by rw [hsum, hstart]; omega), hsum, hstart]
      omega
    · rw [UInt64.lt_iff_toNat_lt, hsum, hend] at hinside
      rw [hsize]
      omega
  have hfrom : k * c + (offset.toNat - k * c) = max offset.toNat (k * c) := by omega
  have hto : k * c + (min (k * c + c) (offset.toNat + length.toNat) - k * c) =
      min (k * c + c) (offset.toNat + length.toNat) := by omega
  rw [bytesBetween_eq_ok (by rw [hfirst, hlast]; omega) (by rw [hlast]; omega), hfirst,
    hlast, chunk, slice_slice (by omega), hfrom, hto]

theorem StoredFile.readParts (hinj : Function.Injective rawCid) (hcipher : Cipher.Correct Key)
    (h : StoredFile ctx blocks relative data m content) (hkeys : keys ctx.epoch = .ok ctx.bucketKey)
    (hlength : 0 < length.toNat) (hstop : offset.toNat + length.toNat ≤ data.length)
    (hfirst : offset.toNat / m.plaintextChunkSize.toNat ≤ k)
    (hleft : k + left = lastIndex m.plaintextChunkSize.toNat (offset.toNat + length.toNat)) :
    Reader.readParts blocks keys ctx.ids ⟨some content, ctx.epoch, m, relative⟩ offset length left
      (UInt64.ofNat k) =
      .ok (slice data (max offset.toNat (k * m.plaintextChunkSize.toNat)) (offset.toNat +
        length.toNat)) := by
  have hm := regularFile_of_accepted h.accepted h.kind
  have hdata := m.size.toNat_lt
  rw [h.size] at hdata
  have hsum : (offset + length).toNat = offset.toNat + length.toNat := toNat_add (by omega)
  induction left generalizing k with
  | zero =>
    have hover : offset.toNat + length.toNat ≤ k * m.plaintextChunkSize.toNat := by
      rw [Nat.add_zero] at hleft
      rw [hleft]
      exact le_lastIndex_mul hm.width
    rw [slice, Nat.sub_eq_zero_of_le (by omega), List.take_zero]
    rfl
  | succ left ih =>
    have hbelow := mul_lt_of_lt_lastIndex hm.width (show 0 < offset.toNat + length.toNat by omega)
      (show k < lastIndex m.plaintextChunkSize.toNat (offset.toNat + length.toNat) by omega)
    have hne : data ≠ [] := List.ne_nil_of_length_pos (by omega)
    have hparts : plainParts m.plaintextChunkSize.toNat data 0 =
      Slices.chunks m.plaintextChunkSize.toNat data := by
      rw [plainParts, if_neg (fun hempty => hne hempty.1)]
    have hcount : k < chunkCount m.plaintextChunkSize.toNat data := by
      have hmono : (offset.toNat + length.toNat - 1) / m.plaintextChunkSize.toNat ≤
        (data.length - 1) / m.plaintextChunkSize.toNat := Nat.div_le_div_right (by omega)
      rw [chunkCount_eq hm.width (by omega)]
      unfold lastIndex at hleft
      omega
    have hoffset : offset.toNat < k * m.plaintextChunkSize.toNat + m.plaintextChunkSize.toNat := by
      have hmul := (Nat.div_lt_iff_lt_mul hm.width).mp (Nat.lt_succ_of_le hfirst)
      rwa [Nat.succ_mul] at hmul
    have hchunk :=
      h.readChunk hinj hcipher hkeys (show (plainParts m.plaintextChunkSize.toNat data 0)[k]? = _ by
      rw [hparts, getElem?_chunks hcount])
    have hstart :
      (UInt64.ofNat k * m.plaintextChunkSize).toNat = k * m.plaintextChunkSize.toNat := by
      have hk : (UInt64.ofNat k).toNat = k := by
        have hle := chunkCount_le hm.width data
        exact toNat_ofNat (by omega)
      rw [toNat_mul (by rw [hk]; omega), hk]
    have hpart := bytesBetween_part hstart hsum hlength hstop hbelow hoffset (by omega)
    have hrest := ih (show offset.toNat / m.plaintextChunkSize.toNat ≤ k + 1 by omega) (by omega)
    rw [UInt64.ofNat_add] at hrest
    refine bind_eq_ok.mpr ⟨_, hchunk, bind_eq_ok.mpr ⟨_, mapError_eq_ok.mpr hpart,
      bind_eq_ok.mpr ⟨_, hrest, ?_⟩⟩⟩
    exact congrArg Except.ok (slice_part_append hoffset)

end reads

end MaltClient.EncryptedUnixFs
