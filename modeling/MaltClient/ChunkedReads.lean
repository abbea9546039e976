import MaltClient.ChunkedPayload

/-! What is read back from a stored body: the bytes of the range, whether the
body is one block or a list of chunks. -/

namespace MaltClient.Payloads

open GoText Checked Dialogue Slices

section stream

theorem weight_cons (f : List UInt8) (fs : Reader) :
    weight (f :: fs) = f.length + 1 + weight fs := by
  simp [weight]
  omega

theorem one_le_weight (reader : Reader) : 1 ≤ weight reader := by
  simp [weight]

theorem read_cases {n : Nat} (hn : 0 < n) (reader : Reader) :
    (reader = [] ∧ read n reader = (⟨.bytes [], some .eof⟩, [])) ∨
      ∃ data reader', read n reader = (⟨.bytes data, none⟩, reader') ∧
        data ++ reader'.flatten = reader.flatten ∧ data.length ≤ n ∧
          weight reader' < weight reader := by
  cases reader with
  | nil => exact .inl ⟨rfl, rfl⟩
  | cons f fs =>
    by_cases hf : f.length ≤ n
    · refine .inr ⟨f, fs, by rw [read, if_pos hf], by simp, hf, ?_⟩
      rw [weight_cons]
      omega
    · refine .inr ⟨f.take n, f.drop n :: fs, by rw [read, if_neg hf], ?_,
        List.length_take_le n f, ?_⟩
      · rw [List.flatten_cons, ← List.append_assoc, List.take_append_drop, List.flatten_cons]
      · rw [weight_cons, weight_cons, List.length_drop]
        omega

variable [CidFormat] [PayloadHash] {s : Storage} {room remaining want fuel : Nat} {got : List UInt8}

/-- A reader that has the declared bytes left gives the next ones, or there are
none and it reports the end. -/
theorem declaredRead_against (expected : Nat) (hr : remaining = s.reader.flatten.length)
    (hroom : 0 < room) :
    ∃ data err reader', (declaredRead expected remaining room).against storage s =
        (.ok ⟨data, err, reader'.flatten.length⟩, { s with reader := reader' }) ∧
      data ++ reader'.flatten = s.reader.flatten ∧ data.length ≤ room ∧
      (err = some .eof ∧ s.reader.flatten = [] ∧ weight reader' ≤ weight s.reader ∨
        err = none ∧ weight reader' < weight s.reader) := by
  unfold declaredRead
  by_cases hzero : remaining = 0
  · have hempty : s.reader.flatten = [] := List.length_eq_zero_iff.mp (hr.symm.trans hzero)
    rw [if_pos hzero]
    rcases read_cases Nat.one_pos s.reader with ⟨hnil, hread⟩ | ⟨data, reader', hread,
      happend, -, hweight⟩
    · refine ⟨[], some .eof, [], ?_, hempty.symm, Nat.zero_le room,
        .inl ⟨rfl, hempty, hnil ▸ le_rfl⟩⟩
      simp [Prog.attempt, Prog.against, storage, hread, extraPart, Count.data]
    · obtain ⟨rfl, hrest⟩ := List.append_eq_nil_iff.mp (happend.trans hempty)
      refine ⟨[], none, reader', ?_, by rw [hempty, hrest]; rfl, Nat.zero_le room,
        .inr ⟨rfl, hweight⟩⟩
      simp [Prog.attempt, Prog.against, storage, hread, extraPart, Count.data, hrest]
  · rw [if_neg hzero]
    rcases read_cases (show 0 < min room remaining by omega) s.reader with
      ⟨hnil, -⟩ | ⟨data, reader', hread, happend, hle, hweight⟩
    · exact absurd (by rw [hr, hnil]; rfl) hzero
    · refine ⟨data, none, reader', ?_, happend, by omega, .inr ⟨rfl, hweight⟩⟩
      have hlength : remaining - data.length = reader'.flatten.length := by
        rw [hr, ← happend, List.length_append, Nat.add_sub_cancel_left]
      simp only [Prog.attempt, Prog.against, storage, hread, countedPart,
        if_neg (not_lt.mpr hle), hlength]

theorem readFull_against (expected : Nat) (hr : remaining = s.reader.flatten.length)
    (hfuel : weight s.reader ≤ fuel) (hgot : got.length ≤ want) :
    ∃ err reader', (readFull expected want fuel remaining got).against storage s =
        (.ok ⟨got ++ s.reader.flatten.take (want - got.length), err, reader'.flatten.length⟩,
          { s with reader := reader' }) ∧
      reader'.flatten = s.reader.flatten.drop (want - got.length) ∧ weight reader' ≤
        weight s.reader ∧
      (want ≤ got.length + s.reader.flatten.length →
        err = none ∧ (got.length < want → weight reader' < weight s.reader)) ∧
      (got.length + s.reader.flatten.length < want → ∃ e, err = some e ∧ e.isEnd = true) := by
  induction fuel generalizing s remaining got with
  | zero =>
    have hpos := one_le_weight s.reader
    omega
  | succ fuel ih =>
    rw [readFull]
    by_cases hfull : want ≤ got.length
    · have hnone : want - got.length = 0 := by omega
      rw [if_pos hfull, hnone, hr, List.take_zero, List.append_nil]
      exact ⟨none, s.reader, rfl, rfl, le_rfl, fun _ => ⟨rfl, by omega⟩, by omega⟩
    rw [if_neg hfull]
    obtain ⟨data, err, reader', hread, happend, hle, herr⟩ :=
      declaredRead_against expected hr (show 0 < want - got.length by omega)
    have hlength : s.reader.flatten.length = data.length + reader'.flatten.length := by
      rw [← happend, List.length_append]
    rw [Prog.against_bind hread]
    rcases herr with ⟨rfl, hempty, hweight⟩ | ⟨rfl, hweight⟩
    · obtain ⟨rfl, hrest⟩ := List.append_eq_nil_iff.mp (happend.trans hempty)
      rw [hempty, List.take_nil, List.drop_nil, List.length_nil]
      refine ⟨some (shortError got .eof), reader', ?_, hrest, hweight, by omega,
        fun _ => ⟨_, rfl, ?_⟩⟩
      · simp only [List.append_nil, fullPart, if_neg hfull]
        rfl
      · unfold shortError
        split_ifs <;> rfl
    · have hgot' : (got ++ data).length ≤ want := by
        rw [List.length_append]
        omega
      have hwant : want - (got ++ data).length = want - got.length - data.length := by
        rw [List.length_append, Nat.sub_add_eq]
      obtain ⟨err, reader'', hnext, hdrop, hweight', hmore, hend⟩ :=
        @ih { s with reader := reader' } _ _ rfl (Nat.lt_succ_iff.mp (hweight.trans_le hfuel)) hgot'
      rw [hwant] at hnext hdrop
      simp only [List.length_append] at hmore hend
      refine ⟨err, reader'', ?_, ?_, hweight'.trans hweight.le, fun hwant => ?_,
        fun hwant => hend (by omega)⟩
      · rw [← happend, List.take_append, List.take_of_length_le hle, ← List.append_assoc]
        exact hnext
      · rw [hdrop, ← happend, List.drop_append, List.drop_eq_nil_of_le hle, List.nil_append]
      · exact ⟨(hmore (by omega)).1, fun _ => hweight'.trans_lt hweight⟩

theorem readAll_against (spare : Nat → Nat) (expected : Nat)
    (hr : remaining = s.reader.flatten.length) (hfuel : weight s.reader ≤ fuel) :
    ∃ reader', (readAll spare expected fuel remaining got).against storage s =
      (.ok (got ++ s.reader.flatten, 0), { s with reader := reader' }) := by
  induction fuel generalizing s remaining got with
  | zero =>
    have hpos := one_le_weight s.reader
    omega
  | succ fuel ih =>
    rw [readAll]
    obtain ⟨data, err, reader', hread, happend, -, herr⟩ :=
      declaredRead_against expected hr (Nat.succ_pos (spare got.length))
    rw [Prog.against_bind hread]
    rcases herr with ⟨rfl, hempty, -⟩ | ⟨rfl, hweight⟩
    · obtain ⟨rfl, hrest⟩ := List.append_eq_nil_iff.mp (happend.trans hempty)
      exact ⟨reader', by rw [hempty, hrest]; rfl⟩
    · obtain ⟨reader'', hnext⟩ :=
        @ih { s with reader := reader' } _ (got ++ data) rfl
          (Nat.lt_succ_iff.mp (hweight.trans_le hfuel))
      refine ⟨reader'', ?_⟩
      rw [← happend, ← List.append_assoc]
      exact hnext

end stream

section numbers

theorem toNat_ofNat {n : Nat} (h : n < 2 ^ 64) : (UInt64.ofNat n).toNat = n := by
  rw [UInt64.toNat_ofNat', Nat.mod_eq_of_lt h]

theorem toNat_add {a b : UInt64} (h : a.toNat + b.toNat < 2 ^ 64) :
    (a + b).toNat = a.toNat + b.toNat := by
  rw [UInt64.toNat_add, Nat.mod_eq_of_lt h]

theorem toNat_mul {a b : UInt64} (h : a.toNat * b.toNat < 2 ^ 64) :
    (a * b).toNat = a.toNat * b.toNat := by
  rw [UInt64.toNat_mul, Nat.mod_eq_of_lt h]

theorem toNat_sub {a b : UInt64} (h : b.toNat ≤ a.toNat) : (a - b).toNat = a.toNat - b.toNat :=
  UInt64.toNat_sub_of_le a b (UInt64.le_iff_toNat_le.mpr h)

theorem toNat_saturatingAdd (a b : UInt64) : (saturatingAdd a b).toNat = min (a.toNat + b.toNat)
    (2 ^ 64 - 1) := by
  have hmax : (UInt64.ofNat (2 ^ 64 - 1)).toNat = 2 ^ 64 - 1 := toNat_ofNat (by norm_num)
  have ha := a.toNat_lt
  have hsub : (UInt64.ofNat (2 ^ 64 - 1) - a).toNat = 2 ^ 64 - 1 - a.toNat := by
    rw [toNat_sub (by omega), hmax]
  unfold saturatingAdd
  split_ifs with hover
  · rw [gt_iff_lt, UInt64.lt_iff_toNat_lt, hsub] at hover
    rw [hmax]
    omega
  · rw [gt_iff_lt, UInt64.lt_iff_toNat_lt, hsub] at hover
    rw [toNat_add (by omega)]
    omega

end numbers

section geometry

variable {c : Nat}

def geometry (c n : Nat) : ChunkMetadata :=
  { profile := chunkMetadataProfile, chunkSize := UInt64.ofNat c, totalSize := UInt64.ofNat n,
    mode := none }

theorem chunkCount_eq (hc : 0 < c) {body : List UInt8} (hbody : 0 < body.length) :
    chunkCount c body = (body.length - 1) / c + 1 := by
  have hsum : body.length + c - 1 = (body.length - 1) + c := by omega
  rw [chunkCount, hsum, Nat.add_div_right _ hc]

theorem chunkCount_le (hc : 0 < c) (body : List UInt8) : chunkCount c body ≤ body.length := by
  rcases Nat.eq_zero_or_pos body.length with hzero | hpos
  · rw [List.length_eq_zero_iff.mp hzero]
    have hnil := length_chunks c ([] : List UInt8)
    rw [chunks_nil] at hnil
    simp [← hnil]
  · rw [chunkCount_eq hc hpos]
    have hdiv := Nat.div_le_self (body.length - 1) c
    omega

theorem validate_geometry (hc : 0 < c) (hc' : c < 2 ^ 63) {body : List UInt8}
    (hbody : 0 < body.length) (hbody' : body.length < 2 ^ 64) :
    (geometry c body.length).validate (UInt64.ofNat (chunkCount c body)) = .ok () := by
  have hchunk : (UInt64.ofNat c).toNat = c := toNat_ofNat (by omega)
  have htotal : (UInt64.ofNat body.length).toNat = body.length := toNat_ofNat (by omega)
  have hwidth : UInt64.ofNat c ≠ 0 := by
    intro hzero
    rw [hzero] at hchunk
    exact absurd hchunk.symm (Nat.pos_iff_ne_zero.mp hc)
  have hpos : (0 : UInt64) < UInt64.ofNat body.length := by
    rw [UInt64.lt_iff_toNat_lt, htotal]
    exact hbody
  have hdiv := Nat.div_le_self (body.length - 1) c
  have hone : (1 : UInt64).toNat = 1 := rfl
  have hsub : (UInt64.ofNat body.length - 1).toNat = body.length - 1 := by
    rw [toNat_sub (by omega), htotal, hone]
  have hexpected :
    (UInt64.ofNat body.length - 1) / UInt64.ofNat c + 1 = UInt64.ofNat (chunkCount c body) := by
    apply UInt64.toNat_inj.mp
    rw [toNat_add (by rw [UInt64.toNat_div, hsub, hchunk, hone]; omega), UInt64.toNat_div, hsub,
      hchunk, hone, toNat_ofNat (by have := chunkCount_le hc body; omega), chunkCount_eq hc hbody]
  simp only [ChunkMetadata.validate, geometry, ok_iff, if_pos hpos, hexpected]
  exact ⟨(), by simp [hwidth], by simp⟩

def lastIndex (c stop : Nat) : Nat := (stop - 1) / c + 1

theorem mul_lt_of_lt_lastIndex {k stop : Nat} (hc : 0 < c) (hpos : 0 < stop)
    (h : k < lastIndex c stop) : k * c < stop := by
  have hle : k ≤ (stop - 1) / c := Nat.lt_succ_iff.mp h
  have hmul := (Nat.le_div_iff_mul_le hc).mp hle
  omega

theorem le_lastIndex_mul {stop : Nat} (hc : 0 < c) : stop ≤ lastIndex c stop * c := by
  have hlt : stop - 1 < lastIndex c stop * c := by
    rw [lastIndex, ← Nat.div_lt_iff_lt_mul hc]
    exact Nat.lt_succ_self _
  omega

end geometry

section hashed

variable [CidFormat] [PayloadHash]

section blocks

variable {blocks blocks' : Blocks} {key : Cid} {d : List UInt8}

def Holds (blocks : Blocks) (d : List UInt8) : Prop := blocks.held.lookup (rawCid d) = some d

theorem put_eq_ok (hinj : Function.Injective rawCid) (h : blocks.put d = .ok (blocks', key)) :
    key = rawCid d ∧ Holds blocks' d ∧ ∀ e, Holds blocks e → Holds blocks' e := by
  simp only [Blocks.put, ok_iff, Prod.mk.injEq] at h
  obtain ⟨_, -, rfl, rfl⟩ := h
  refine ⟨rfl, by rw [Holds, AssocMap.lookup_insert_eq, if_pos rfl], fun e he => ?_⟩
  rw [Holds, AssocMap.lookup_insert_eq]
  split_ifs with heq
  · rw [hinj heq]
  · exact he

theorem getBoundBlock_of_holds (h : Holds blocks d) : getBoundBlock blocks (rawCid d) = .ok d := by
  simp only [getBoundBlock, Blocks.get, ok_iff]
  exact ⟨d, h, (), by simp [PayloadHash.sums_rawCid], rfl⟩

end blocks

section materialize

def chunkKeys (c : Nat) (body : List UInt8) : List Cid := (chunks c body).map rawCid

theorem length_chunkKeys (c : Nat) (body : List UInt8) :
    (chunkKeys c body).length = chunkCount c body := by
  rw [chunkKeys, List.length_map, length_chunks]

/-- The blocks after some puts: what was held still is. -/
structure Grown (blocks blocks' : Blocks) : Prop where
  refuses : blocks'.refuses = blocks.refuses
  held : ∀ d, Holds blocks d → Holds blocks' d

/-- The program returns, unless the store refuses a block. -/
def Succeeds {α : Type} (p : Stream α) (s : Storage) (Q : α → Storage → Prop) : Prop :=
  (∃ d, s.blocks.refuses d = true) ∧ (∃ e s', p.against storage s = (.error e, s')) ∨
    ∃ a s', p.against storage s = (.ok a, s') ∧ Grown s.blocks s'.blocks ∧ Q a s'

variable {α β : Type} {p : Stream α} {s s' : Storage} {a : α} {next : α → Stream β}
  {Q : β → Storage → Prop}

theorem Succeeds.of_eq {Q : α → Storage → Prop} (h : p.against storage s = (.ok a, s'))
    (hs : s'.blocks = s.blocks) (hQ : Q a s') : Succeeds p s Q :=
  .inr ⟨a, s', h, by rw [hs]; exact ⟨rfl, fun _ h => h⟩, hQ⟩

theorem Succeeds.bind {P : α → Storage → Prop} (h : Succeeds p s P)
    (hnext : ∀ a s', Grown s.blocks s'.blocks → P a s' → Succeeds (next a) s' Q) :
    Succeeds (p >>= next) s Q := by
  rcases h with ⟨hd, e, s', he⟩ | ⟨a, s', ha, hgrown, hP⟩
  · exact .inl ⟨hd, e, s', Prog.against_bind_error he⟩
  · unfold Succeeds
    rw [Prog.against_bind ha]
    rcases hnext a s' hgrown hP with ⟨hd, hfail⟩ | ⟨b, s'', hb, hgrown', hQ⟩
    · exact .inl ⟨by rwa [hgrown.refuses] at hd, hfail⟩
    · refine .inr ⟨b, s'', hb, ⟨hgrown'.refuses.trans hgrown.refuses, fun d hd => ?_⟩, hQ⟩
      exact hgrown'.held d (hgrown.held d hd)

theorem Succeeds.mono {P Q : α → Storage → Prop} (h : Succeeds p s P)
    (hPQ : ∀ a s', Grown s.blocks s'.blocks → P a s' → Q a s') : Succeeds p s Q := by
  rcases h with h | ⟨a, s', ha, hgrown, hP⟩
  · exact .inl h
  · exact .inr ⟨a, s', ha, hgrown, hPQ a s' hgrown hP⟩

theorem Succeeds.then (h : p.against storage s = (.ok a, s')) (hs : s'.blocks = s.blocks)
    (hnext : Succeeds (next a) s' Q) : Succeeds (p >>= next) s Q :=
  (Succeeds.of_eq (Q := fun x t => x = a ∧ t = s') h hs ⟨rfl, rfl⟩).bind fun _ _ _ ⟨hx, ht⟩ =>
    hx ▸ ht ▸ hnext

theorem Succeeds.checked {x : Except StreamError α} (hx : x = .ok a)
    (hnext : Succeeds (next a) s Q) : Succeeds (Prog.stop x >>= next) s Q := by
  subst hx
  exact hnext

variable (hinj : Function.Injective rawCid)

include hinj

theorem succeeds_put (s : Storage) (d : List UInt8) :
    Succeeds (Prog.attempt (.put d) id) s fun key s' =>
    key = rawCid d ∧ s'.reader = s.reader ∧ Holds s'.blocks d := by
  cases h : s.blocks.refuses d with
  | true =>
    have hput : s.blocks.put d = .error .io := by simp [Blocks.put, reject, h, bind, Except.bind]
    refine .inl ⟨⟨d, h⟩, .store "block store failed", s, ?_⟩
    simp only [Prog.attempt, Prog.against, storage, hput, id]
  | false =>
    obtain ⟨blocks', hput, hrefuses⟩ : ∃ blocks', s.blocks.put d = .ok (blocks', rawCid d) ∧
        blocks'.refuses = s.blocks.refuses := by
      simp [Blocks.put, reject, h, bind, Except.bind, pure, Except.pure]
    obtain ⟨-, hself, hkeep⟩ := put_eq_ok hinj hput
    refine .inr ⟨_, { s with blocks := blocks' }, ?_, ⟨hrefuses, hkeep⟩, rfl, rfl, hself⟩
    simp only [Prog.attempt, Prog.against, storage, hput, id]

theorem succeeds_putChunk (keys : List Cid) {d : List UInt8} (hd : d ≠ []) :
    Succeeds (putChunk keys d) s fun keys' s' =>
      keys' = keys ++ [rawCid d] ∧ s'.reader = s.reader ∧ Holds s'.blocks d := by
  rw [putChunk, if_neg hd]
  refine (succeeds_put hinj s d).bind fun key s' _ h => ?_
  obtain ⟨rfl, hreader, hheld⟩ := h
  exact .of_eq rfl rfl ⟨rfl, hreader, hheld⟩

theorem succeeds_streamPayloadChunks {c calls fuel remaining : Nat} (hc : 0 < c) (expected : Nat)
    (keys : List Cid) (hr : remaining = s.reader.flatten.length) (hcalls : weight s.reader ≤ calls)
    (hfuel : weight s.reader ≤ fuel) :
    Succeeds (streamPayloadChunks expected c calls fuel remaining keys) s fun read s' =>
      read = (keys ++ chunkKeys c s.reader.flatten, 0) ∧ ∀ d ∈ chunks c s.reader.flatten,
        Holds s'.blocks d := by
  induction fuel generalizing s remaining keys with
  | zero =>
    have hpos := one_le_weight s.reader
    omega
  | succ fuel ih =>
    obtain ⟨err, reader', hread, hdrop, -, hmore, hend⟩ :=
      @readFull_against _ _ s remaining c calls [] expected hr hcalls (Nat.zero_le c)
    simp only [List.nil_append, List.length_nil, Nat.sub_zero, Nat.zero_add]
      at hread hdrop hmore hend
    refine Succeeds.then hread rfl ?_
    by_cases hle : c ≤ s.reader.flatten.length
    · have hne : s.reader.flatten ≠ [] := List.ne_nil_of_length_pos (by omega)
      have hdata : s.reader.flatten.take c ≠ [] :=
        List.ne_nil_of_length_pos (by rw [List.length_take]; omega)
      obtain ⟨rfl, hless⟩ := hmore hle
      have hweight := hless hc
      refine (succeeds_putChunk hinj keys hdata).bind fun keys' s₁ hgrown h => ?_
      obtain ⟨rfl, hreader, hheld⟩ := h
      obtain rfl : s₁.reader = reader' := hreader
      refine (ih _ rfl (by omega) (by omega)).mono fun read s₂ hgrown' h => ?_
      obtain ⟨rfl, hrest⟩ := h
      rw [chunkKeys, chunkKeys, chunks_cons hc hne, ← hdrop, List.map_cons, List.append_assoc]
      refine ⟨rfl, fun d hd => ?_⟩
      rcases List.mem_cons.mp hd with rfl | hd
      · exact hgrown'.held _ hheld
      · exact hrest d hd
    · have hleft : reader'.flatten.length = 0 := by
        rw [hdrop, List.length_drop]
        omega
      obtain ⟨e, rfl, he⟩ := hend (by omega)
      simp only [he, if_true, List.take_of_length_le (Nat.le_of_not_le hle), hleft]
      by_cases hne : s.reader.flatten = []
      · simp only [hne, chunkKeys, chunks_nil]
        exact .of_eq rfl rfl ⟨by simp, by simp⟩
      · have hone : chunks c s.reader.flatten = [s.reader.flatten] := by
          rw [chunks_cons hc hne, List.take_of_length_le (by omega),
            List.drop_eq_nil_of_le (by omega), chunks_nil]
        refine (succeeds_putChunk hinj keys hne).bind fun keys' s₁ _ h => ?_
        obtain ⟨rfl, -, hheld⟩ := h
        rw [chunkKeys, hone]
        exact .of_eq rfl rfl ⟨rfl, by simpa using hheld⟩

variable [ChunkJson]

omit hinj in
def metadataKey (c n : Nat) : Cid := rawCid (ChunkJson.marshal (geometry c n))

omit hinj in
/-- What storing a body leaves: the body as one block, or its chunks and the
metadata. -/
inductive Stored (blocks : Blocks) (c : Nat) (body : List UInt8) : Payload → Prop
  | raw (hsmall : body.length ≤ c) (hbody : Holds blocks body) :
      Stored blocks c body (.raw (rawCid body))
  | chunked (hlarge : c < body.length) (hchunks : ∀ d ∈ chunks c body, Holds blocks d)
      (hmetadata : Holds blocks (ChunkJson.marshal (geometry c body.length))) :
      Stored blocks c body (.positional (chunkKeys c body) (metadataKey c body.length))

theorem succeeds_finishMeasured {c : Nat} {body : List UInt8} (flusher : Bool) (hc : 0 < c)
    (hc' : c < 2 ^ 63) (hbody : 0 < body.length) (hsize : body.length < 2 ^ 64) :
    Succeeds (finishMeasured flusher body.length c (chunkKeys c body)) s fun _ s' =>
      s'.created = some (.positional (chunkKeys c body) (metadataKey c body.length)) ∧
      Holds s'.blocks (ChunkJson.marshal (geometry c body.length)) := by
  have hne : chunkKeys c body ≠ [] := by
    rw [chunkKeys, chunks_cons hc (List.ne_nil_of_length_pos hbody)]
    simp
  have hencode : encodeChunkMetadata (UInt64.ofNat body.length) (UInt64.ofNat c)
      (UInt64.ofNat (chunkKeys c body).length) =
        .ok (ChunkJson.marshal (geometry c body.length)) := by
    rw [length_chunkKeys]
    exact bind_eq_ok.mpr ⟨(), validate_geometry hc hc' hbody hsize, rfl⟩
  have hverify : verifyPayloadCID (metadataKey c body.length)
    (ChunkJson.marshal (geometry c body.length)) = .ok () :=
    reject_eq_ok.mpr (by simp [metadataKey, PayloadHash.sums_rawCid])
  have hflush (s : Storage) :
    (flushBlocks flusher).against storage s = (.ok (), s) := by cases flusher <;> rfl
  unfold finishMeasured
  refine .checked (a := ()) (reject_eq_ok.mpr hne) (.checked (mapError_eq_ok.mpr hencode) ?_)
  refine (succeeds_put hinj s _).bind fun key s₁ _ h => ?_
  obtain ⟨rfl, -, hheld⟩ := h
  refine .checked (mapError_eq_ok.mpr hverify) (.then (hflush s₁) rfl ?_)
  exact .of_eq rfl rfl ⟨rfl, hheld⟩

theorem succeeds_materialize {c : Nat} (spare : Nat → Nat) (flusher : Bool) (hc : 0 < c)
    (hc' : c < 2 ^ 63) (hsize : s.reader.flatten.length < 2 ^ 64) :
    Succeeds (materializeStagedFilePayload spare flusher (weight s.reader) s.reader.flatten.length
      c) s fun r s' =>
      Stored s'.blocks c s.reader.flatten (if r.2 = true then s'.created.getD (.raw r.1)
        else .raw r.1) := by
  unfold materializeStagedFilePayload
  rw [if_neg (by omega), if_neg (by omega)]
  by_cases hsmall : s.reader.flatten.length ≤ c
  · rw [if_pos (by omega), Int.toNat_natCast]
    obtain ⟨reader', hread⟩ := readAll_against spare s.reader.flatten.length rfl
      (le_refl (weight s.reader))
    have hraw :
      Succeeds (materializeRaw spare (weight s.reader) s.reader.flatten.length) s fun key s' =>
        key = rawCid s.reader.flatten ∧ Holds s'.blocks s.reader.flatten := by
      refine .then hread rfl (.checked (a := ()) (reject_eq_ok.mpr (not_not.mpr rfl)) ?_)
      exact (succeeds_put hinj _ _).mono fun _ _ _ h => ⟨h.1, h.2.2⟩
    refine hraw.bind fun key s' _ h => .of_eq rfl rfl ?_
    obtain ⟨rfl, hheld⟩ := h
    exact .raw hsmall hheld
  · rw [if_neg (by omega), Int.toNat_natCast, Int.toNat_natCast]
    have hmeasured :
      Succeeds (materializeMeasuredPayload flusher (weight s.reader) s.reader.flatten.length c) s
        fun _ s' => s'.created = some (.positional (chunkKeys c s.reader.flatten)
            (metadataKey c s.reader.flatten.length)) ∧
          (∀ d ∈ chunks c s.reader.flatten, Holds s'.blocks d) ∧
          Holds s'.blocks (ChunkJson.marshal (geometry c s.reader.flatten.length)) := by
      refine (succeeds_streamPayloadChunks hinj hc _ [] rfl le_rfl le_rfl).bind
        fun read s₁ _ h => ?_
      obtain ⟨rfl, hheld⟩ := h
      refine .checked (a := ()) (reject_eq_ok.mpr (not_not.mpr rfl)) ?_
      refine (succeeds_finishMeasured hinj flusher hc hc' (by omega) hsize).mono
        fun _ s₂ hgrown h => ?_
      exact ⟨h.1, fun d hd => hgrown.held d (hheld d hd), h.2⟩
    refine hmeasured.bind fun key s' _ h => .of_eq rfl rfl ?_
    simp only [if_true, h.1, Option.getD_some]
    exact .chunked (not_le.mp hsmall) h.2.1 h.2.2

omit hinj in
theorem storeBody_eq {spare : Nat → Nat} {flusher : Bool} {blocks : Blocks} {reader : Reader}
    {size c : Int} {r : Cid × Bool}
    (h : (materializeStagedFilePayload spare flusher (weight reader) size c).against storage
      ⟨reader, blocks, none⟩ = (.ok r, s)) : storeBody spare flusher blocks reader size c =
        .ok (s.blocks, if r.2 = true then s.created.getD (.raw r.1) else .raw r.1) := by
  rw [storeBody, h]

end materialize

section ranges

variable {body : List UInt8} {c : Nat}

def stopOf (size offset : Nat) : Option Nat → Nat
  | some length => if size ≤ offset ∨ length = 0 then offset else min size (offset + length)
  | none => if size ≤ offset then offset else size

omit [CidFormat] [PayloadHash] in
theorem bytesBetween_eq_ok {data : List UInt8} {first last : UInt64}
    (hle : first.toNat ≤ last.toNat) (hlast : last.toNat ≤ data.length) :
    bytesBetween data first last = .ok (slice data first.toNat last.toNat) := by
  refine bind_eq_ok.mpr ⟨(), reject_eq_ok.mpr ?_, rfl⟩
  rw [not_or, UInt64.not_lt, UInt64.le_iff_toNat_le]
  exact ⟨hle, not_lt.mpr hlast⟩

omit [CidFormat] [PayloadHash] in
theorem rawRange_spec (hsize : body.length < 2 ^ 64) (offset : UInt64) (length : Option UInt64) :
    ∃ stop, rawRange body offset length =
        .ok (slice body offset.toNat (stopOf body.length offset.toNat (length.map UInt64.toNat)),
          stop) ∧
      stop.toNat = stopOf body.length offset.toNat (length.map UInt64.toNat) := by
  have htotal : (UInt64.ofNat body.length).toNat = body.length := toNat_ofNat (by omega)
  have hge : offset ≥ UInt64.ofNat body.length ↔ body.length ≤ offset.toNat := by
    rw [ge_iff_le, UInt64.le_iff_toNat_le, htotal]
  cases length with
  | some length =>
    have hzero : length = 0 ↔ length.toNat = 0 := by rw [← UInt64.toNat_inj]; rfl
    by_cases hempty : body.length ≤ offset.toNat ∨ length.toNat = 0
    · refine ⟨offset, ?_, by rw [Option.map_some, stopOf, if_pos hempty]⟩
      rw [Option.map_some, stopOf, if_pos hempty, slice_self, rawRange,
        if_pos (by rw [hge, hzero]; exact hempty)]
      rfl
    · have hsum := toNat_saturatingAdd offset length
      have hstop :
        (if saturatingAdd offset length > UInt64.ofNat body.length then UInt64.ofNat body.length
          else saturatingAdd offset length).toNat =
            min body.length (offset.toNat + length.toNat) := by
        split_ifs with hover
        · rw [gt_iff_lt, UInt64.lt_iff_toNat_lt, htotal, hsum] at hover
          rw [htotal]
          omega
        · rw [gt_iff_lt, UInt64.lt_iff_toNat_lt, htotal, hsum] at hover
          rw [hsum]
          omega
      have hbetween :=
        @bytesBetween_eq_ok body offset _ (by rw [hstop]; omega) (hstop ▸ Nat.min_le_left _ _)
      rw [hstop] at hbetween
      refine ⟨_, ?_, by rw [Option.map_some, stopOf, if_neg hempty, ← hstop]⟩
      rw [Option.map_some, stopOf, if_neg hempty, rawRange,
        if_neg (by rw [hge, hzero]; exact hempty)]
      exact bind_eq_ok.mpr ⟨_, hbetween, rfl⟩
  | none =>
    by_cases hpos : offset > 0
    · by_cases hempty : body.length ≤ offset.toNat
      · refine ⟨offset, ?_, by rw [Option.map_none, stopOf, if_pos hempty]⟩
        rw [Option.map_none, stopOf, if_pos hempty, slice_self, rawRange, if_pos hpos,
          if_pos (hge.mpr hempty)]
        rfl
      · have hbetween :=
          @bytesBetween_eq_ok body offset (UInt64.ofNat body.length) (by rw [htotal]; omega)
          (by rw [htotal])
        rw [htotal] at hbetween
        refine ⟨UInt64.ofNat body.length, ?_, by rw [Option.map_none, stopOf,
          if_neg hempty, htotal]⟩
        rw [Option.map_none, stopOf, if_neg hempty, rawRange, if_pos hpos,
          if_neg (fun h => hempty (hge.mp h))]
        exact bind_eq_ok.mpr ⟨_, hbetween, rfl⟩
    · have hzero : offset.toNat = 0 := by
        rw [gt_iff_lt, UInt64.lt_iff_toNat_lt] at hpos
        exact Nat.eq_zero_of_not_pos hpos
      have hstop : stopOf body.length offset.toNat none = body.length := by
        rw [stopOf, hzero]
        split_ifs with hempty
        · exact (Nat.le_zero.mp hempty).symm
        · rfl
      refine ⟨UInt64.ofNat body.length, ?_, by rw [Option.map_none, hstop, htotal]⟩
      have hall : slice body 0 body.length = body := by simp [slice]
      rw [Option.map_none, hstop, hzero, hall, rawRange, if_neg hpos]
      rfl

end ranges

section segments

variable {body : List UInt8} {c : Nat} {blocks : Blocks} {start stop : UInt64}

def Fetched (fetched : AList fun _ : Cid => List UInt8) : Prop :=
  ∀ d data, fetched.lookup (rawCid d) = some data → data = d

theorem Fetched.insert (hinj : Function.Injective rawCid)
    {fetched : AList fun _ : Cid => List UInt8}
    (h : Fetched fetched) (d : List UInt8) : Fetched (fetched.insert (rawCid d) d) := by
  intro e data hl
  rw [AssocMap.lookup_insert_eq] at hl
  split_ifs at hl with heq
  · rw [hinj heq]
    exact (Option.some.inj hl).symm
  · exact h e data hl

theorem loadBody_fetched {fetched : AList fun _ : Cid => List UInt8} (h : Fetched fetched)
    {d : List UInt8} (hheld : Holds blocks d) :
    loadBody blocks (rawCid d) (fetched.lookup (rawCid d)) = .ok d := by
  cases hl : fetched.lookup (rawCid d) with
  | none => exact getBoundBlock_of_holds hheld
  | some data =>
    rw [h d data hl]
    rfl

def keysBetween (c : Nat) (body : List UInt8) (k m : Nat) : List Cid :=
  (List.range' k (m - k)).map fun j => rawCid (chunk c body j)

theorem keysBetween_cons {k m : Nat} (h : k < m) :
    keysBetween c body k m = rawCid (chunk c body k) :: keysBetween c body (k + 1) m := by
  have hcount : m - k = (m - (k + 1)) + 1 := by omega
  rw [keysBetween, hcount, List.range'_succ, List.map_cons]
  rfl

theorem slice_keys {k m : Nat} (hm : m ≤ chunkCount c body) :
    slice (chunkKeys c body) k m = keysBetween c body k m := by
  have hle : m - k ≤ chunkCount c body - k := by omega
  rw [chunkKeys, chunks, List.map_map, slice, ← List.map_drop, ← List.map_take, keysBetween,
    List.range_eq_range',
    List.drop_range', Nat.zero_add, Nat.mul_one, List.take_range'_of_length_ge hle]
  rfl

omit [CidFormat] [PayloadHash] in
theorem segment_eq_ok (hc' : c < 2 ^ 63) (hsize : body.length < 2 ^ 64) {k : Nat} {offset : UInt64}
    (hoffset : offset.toNat = k * c) (hbelow : k * c < stop.toNat)
    (hstop : stop.toNat ≤ body.length)
    (hrange : start.toNat < stop.toNat) (hstart : start.toNat < k * c + c) :
    UInt64.ofNat (chunk c body k).length = min (UInt64.ofNat c)
      (UInt64.ofNat body.length - offset) ∧
      bytesBetween (chunk c body k) (if start > offset then start - offset else 0)
          (min (min (UInt64.ofNat c) (UInt64.ofNat body.length - offset)) (stop - offset)) =
        .ok (slice body (max start.toNat (k * c)) (min (k * c + c) stop.toNat)) := by
  have hchunk : (UInt64.ofNat c).toNat = c := toNat_ofNat (by omega)
  have htotal : (UInt64.ofNat body.length).toNat = body.length := toNat_ofNat (by omega)
  have hexpected : (min (UInt64.ofNat c) (UInt64.ofNat body.length - offset)).toNat =
    min c (body.length - k * c) := by
    rw [UInt64.toNat_min, toNat_sub (by omega), hchunk, htotal, hoffset]
  have hdata : (chunk c body k).length = min c (body.length - k * c) := by
    rw [length_chunk]
    omega
  have hfirst : (if start > offset then start - offset else 0).toNat = start.toNat - k * c := by
    split_ifs with hover
    · rw [gt_iff_lt, UInt64.lt_iff_toNat_lt, hoffset] at hover
      rw [toNat_sub (by omega), hoffset]
    · rw [gt_iff_lt, UInt64.lt_iff_toNat_lt, hoffset] at hover
      exact (Nat.sub_eq_zero_of_le (not_lt.mp hover)).symm
  have hlast :
    (min (min (UInt64.ofNat c) (UInt64.ofNat body.length - offset)) (stop - offset)).toNat =
      min c (stop.toNat - k * c) := by
    rw [UInt64.toNat_min, hexpected, toNat_sub (by omega), hoffset]
    omega
  constructor
  · apply UInt64.toNat_inj.mp
    rw [hexpected, hdata, toNat_ofNat (by omega)]
  · have hfrom : k * c + (start.toNat - k * c) = max start.toNat (k * c) := by omega
    have hto : k * c + min c (stop.toNat - k * c) = min (k * c + c) stop.toNat := by omega
    rw [bytesBetween_eq_ok (by omega) (by omega), hfirst, hlast, chunk,
      slice_slice (by omega), hfrom, hto]

/-- The chunks of a range, each cut to it, make up the range. The induction is
on the chunks that are left; those before the first number are done. -/
theorem readSegments_spec (hinj : Function.Injective rawCid) (hc : 0 < c) (hc' : c < 2 ^ 63)
    (hsize : body.length < 2 ^ 64) (hheld : ∀ d ∈ chunks c body, Holds blocks d)
    (hrange : start.toNat < stop.toNat)
    (hstop : stop.toNat ≤ body.length) {left k : Nat} {i : UInt64}
    (hi : start.toNat / c + i.toNat = k)
    (hleft : k + left = lastIndex c stop.toNat) {fetched : AList fun _ : Cid => List UInt8}
    (hfetched : Fetched fetched) : readSegments blocks (geometry c body.length) start stop i fetched
      (keysBetween c body k (k + left)) =
      .ok (slice body (max start.toNat (k * c)) stop.toNat) := by
  induction left generalizing k i fetched with
  | zero =>
    have hover : stop.toNat ≤ k * c := by
      rw [Nat.add_zero] at hleft
      rw [hleft]
      exact le_lastIndex_mul hc
    have hnil : slice body (max start.toNat (k * c)) stop.toNat = [] := by
      rw [slice, Nat.sub_eq_zero_of_le (by omega), List.take_zero]
    rw [hnil, Nat.add_zero, keysBetween, Nat.sub_self]
    rfl
  | succ left ih =>
    have hbelow : k * c < stop.toNat := mul_lt_of_lt_lastIndex hc (by omega) (by omega)
    have hcount : k < chunkCount c body := by
      rw [chunkCount_eq hc (by omega)]
      have hmono : (stop.toNat - 1) / c ≤ (body.length - 1) / c := Nat.div_le_div_right (by omega)
      unfold lastIndex at hleft
      omega
    have hstart : start.toNat < k * c + c := by
      have hdiv : start.toNat / c < k + 1 := by omega
      have hmul := (Nat.div_lt_iff_lt_mul hc).mp hdiv
      rwa [Nat.succ_mul] at hmul
    have hcounts := chunkCount_le hc body
    have hchunk : (UInt64.ofNat c).toNat = c := toNat_ofNat (by omega)
    have hone : (1 : UInt64).toNat = 1 := rfl
    have hindex : (start / UInt64.ofNat c + i).toNat = k := by
      rw [toNat_add (by rw [UInt64.toNat_div, hchunk, hi]; omega), UInt64.toNat_div, hchunk, hi]
    have hoffset : ((start / UInt64.ofNat c + i) * UInt64.ofNat c).toNat = k * c := by
      rw [toNat_mul (by rw [hindex, hchunk]; omega), hindex, hchunk]
    obtain ⟨hlength, hpart⟩ := segment_eq_ok hc' hsize hoffset hbelow hstop hrange hstart
    have hsmall : i.toNat ≤ k := hi ▸ Nat.le_add_left _ _
    have hnext : (i + 1).toNat = i.toNat + 1 := by rw [toNat_add (by rw [hone]; omega), hone]
    have hmem : chunk c body k ∈ chunks c body :=
      List.mem_map.mpr ⟨k, List.mem_range.mpr hcount, rfl⟩
    have hrest :=
      @ih (k + 1) (i + 1) (by omega) (by omega) _ (hfetched.insert hinj (chunk c body k))
    have hkeys : k + (left + 1) = k + 1 + left := by omega
    rw [hkeys, keysBetween_cons (by omega), readSegments]
    refine bind_eq_ok.mpr ⟨chunk c body k, loadBody_fetched hfetched (hheld _ hmem), ?_⟩
    refine bind_eq_ok.mpr ⟨(), reject_eq_ok.mpr (not_not.mpr hlength), ?_⟩
    exact bind_eq_ok.mpr ⟨_, hpart,
      bind_eq_ok.mpr ⟨_, hrest, congrArg Except.ok (slice_part_append hstart)⟩⟩

end segments

section answers

variable [ChunkJson] {blocks : Blocks} {body : List UInt8} {c : Nat}

structure Answers (result : ReadResult) (body : List UInt8) (offset : UInt64)
    (length : Option UInt64) : Prop where
  starts : result.offset = offset
  ends : result.stop.toNat = stopOf body.length offset.toNat (length.map UInt64.toNat)
  total : result.totalSize.toNat = body.length
  bytes : result.body =
    slice body offset.toNat (stopOf body.length offset.toNat (length.map UInt64.toNat))

def Retains (s : Stat) (c : Nat) (body : List UInt8) : Prop :=
  (∀ data, s.rawBody = some data → data = body) ∧
    ∀ data, s.chunkMetadataBody = some data → data = ChunkJson.marshal (geometry c body.length)

theorem parseChunkMetadata_geometry (hc : 0 < c) (hc' : c < 2 ^ 63) (hbody : 0 < body.length)
    (hsize : body.length < 2 ^ 64) : parseChunkMetadata (metadataKey c body.length)
      (ChunkJson.marshal (geometry c body.length)) (UInt64.ofNat (chunkCount c body)) =
        .ok (geometry c body.length) := by
  refine bind_eq_ok.mpr ⟨(), reject_eq_ok.mpr (by simp [metadataKey, PayloadHash.sums_rawCid]), ?_⟩
  refine bind_eq_ok.mpr ⟨(), reject_eq_ok.mpr (by simp [metadataKey, PayloadHash.isRaw_rawCid]), ?_⟩
  refine bind_eq_ok.mpr ⟨_, required_eq_ok.mpr (ChunkJson.unmarshal_marshal _ rfl), ?_⟩
  refine bind_eq_ok.mpr ⟨(), validate_geometry hc hc' hbody hsize, ?_⟩
  exact bind_eq_ok.mpr ⟨(), reject_eq_ok.mpr (by simp), rfl⟩

variable [InlineBody]

theorem readChunkMetadata_geometry (hc : 0 < c) (hc' : c < 2 ^ 63) (hbody : 0 < body.length)
    (hsize : body.length < 2 ^ 64)
    (hheld : Holds blocks (ChunkJson.marshal (geometry c body.length)))
    {retained : Option (List UInt8)}
    (hretained : ∀ data, retained = some data → data = ChunkJson.marshal (geometry c body.length)) :
    readChunkMetadata blocks ⟨metadataKey c body.length, UInt64.ofNat (chunkKeys c body).length⟩
      retained = .ok (geometry c body.length, ChunkJson.marshal (geometry c body.length)) := by
  have hload : loadBody blocks (metadataKey c body.length)
      (retained.or (InlineBody.inline (metadataKey c body.length))) =
        .ok (ChunkJson.marshal (geometry c body.length)) := by
    cases retained with
    | some data =>
      rw [hretained data rfl]
      rfl
    | none =>
      cases hinline : InlineBody.inline (metadataKey c body.length) with
      | some data =>
        rw [InlineBody.inline_rawCid hinline]
        rfl
      | none => exact getBoundBlock_of_holds hheld
  refine bind_eq_ok.mpr ⟨_, hload, bind_eq_ok.mpr ⟨geometry c body.length, ?_, rfl⟩⟩
  rw [length_chunkKeys]
  exact parseChunkMetadata_geometry hc hc' hbody hsize

omit [CidFormat] [PayloadHash] [ChunkJson] [InlineBody] in
theorem stop_of_range (hsize : body.length < 2 ^ 64) {offset : UInt64} {length : Option UInt64}
    (hoffset : offset.toNat < body.length) (hlength : length ≠ some 0) :
    (length.elim (UInt64.ofNat body.length) fun length => min (UInt64.ofNat body.length)
      (saturatingAdd offset length)).toNat =
        stopOf body.length offset.toNat (length.map UInt64.toNat) ∧
      offset.toNat < stopOf body.length offset.toNat (length.map UInt64.toNat) ∧
      stopOf body.length offset.toNat (length.map UInt64.toNat) ≤ body.length := by
  have htotal : (UInt64.ofNat body.length).toNat = body.length := toNat_ofNat (by omega)
  cases length with
  | none =>
    have hnot : ¬ body.length ≤ offset.toNat := not_le.mpr hoffset
    rw [Option.map_none, Option.elim_none, stopOf, if_neg hnot, htotal]
    exact ⟨rfl, hoffset, le_rfl⟩
  | some length =>
    have hpos : length.toNat ≠ 0 := fun hzero => hlength (congrArg some (UInt64.toNat_inj.mp hzero))
    have hnot : ¬ (body.length ≤ offset.toNat ∨ length.toNat = 0) :=
      not_or.mpr ⟨not_le.mpr hoffset, hpos⟩
    rw [Option.map_some, Option.elim_some, stopOf, if_neg hnot, UInt64.toNat_min,
      toNat_saturatingAdd, htotal]
    omega

theorem readTypedRange_spec (hinj : Function.Injective rawCid) (hc : 0 < c) (hc' : c < 2 ^ 63)
    (hbody : 0 < body.length) (hsize : body.length < 2 ^ 64)
    (hheld : ∀ d ∈ chunks c body, Holds blocks d)
    (hmetadata : Holds blocks (ChunkJson.marshal (geometry c body.length)))
    {retained : Option (List UInt8)}
    (hretained : ∀ data, retained = some data → data = ChunkJson.marshal (geometry c body.length))
    (offset : UInt64) (length : Option UInt64) : ∃ result, readTypedRange blocks (chunkKeys c body)
      (metadataKey c body.length) offset length retained = .ok result ∧
      Answers result body offset length := by
  have htotal : (UInt64.ofNat body.length).toNat = body.length := toNat_ofNat (by omega)
  have hgeometry := readChunkMetadata_geometry hc hc' hbody hsize hmetadata hretained
  by_cases hempty : offset ≥ UInt64.ofNat body.length ∨ length = some 0
  · have hstop : stopOf body.length offset.toNat (length.map UInt64.toNat) = offset.toNat := by
      rw [ge_iff_le, UInt64.le_iff_toNat_le, htotal] at hempty
      cases length with
      | none => rw [Option.map_none, stopOf, if_pos (hempty.resolve_right (by simp))]
      | some length =>
        rw [Option.map_some, stopOf, if_pos]
        exact hempty.imp_right fun hzero => by rw [Option.some.inj hzero]; rfl
    refine ⟨_, bind_eq_ok.mpr ⟨_, hgeometry, if_pos hempty⟩, ⟨rfl, hstop.symm, htotal, ?_⟩⟩
    rw [hstop, slice_self]
  · have hempty' := hempty
    rw [not_or, ge_iff_le, UInt64.le_iff_toNat_le, htotal, not_le] at hempty'
    obtain ⟨hstop, hrange, hle⟩ := stop_of_range hsize hempty'.1 hempty'.2
    generalize hs : (length.elim (UInt64.ofNat body.length) fun length =>
      min (UInt64.ofNat body.length) (saturatingAdd offset length)) = stop at hstop
    rw [← hstop] at hrange hle
    have hchunk : (UInt64.ofNat c).toNat = c := toNat_ofNat (by omega)
    have hone : (1 : UInt64).toNat = 1 := rfl
    have hlast : lastIndex c stop.toNat ≤ chunkCount c body := by
      rw [chunkCount_eq hc hbody, lastIndex]
      exact Nat.succ_le_succ (Nat.div_le_div_right (by omega))
    have hcounts := chunkCount_le hc body
    have hfirstIndex :
      (offset / UInt64.ofNat c).toNat = offset.toNat / c := by rw [UInt64.toNat_div, hchunk]
    have hstopIndex : ((stop - 1) / UInt64.ofNat c + 1).toNat = lastIndex c stop.toNat := by
      have hdiv : ((stop - 1) / UInt64.ofNat c).toNat = (stop.toNat - 1) / c := by
        rw [UInt64.toNat_div, toNat_sub (by omega), hchunk, hone]
      rw [toNat_add (by rw [hdiv, hone]; unfold lastIndex at hlast; omega), hdiv, hone, lastIndex]
    have hfirst : offset.toNat / c ≤ lastIndex c stop.toNat := by
      have hmono : offset.toNat / c ≤ (stop.toNat - 1) / c := Nat.div_le_div_right (by omega)
      exact Nat.le_succ_of_le hmono
    have hzero : (0 : UInt64).toNat = 0 := rfl
    have hread :=
      @readSegments_spec _ _ body c blocks offset stop hinj hc hc' hsize hheld hrange hle
      (lastIndex c stop.toNat - offset.toNat / c) (offset.toNat / c) 0 (by rw [hzero, Nat.add_zero])
      (by omega) ∅
      (fun d data hl => by simp at hl)
    have hstart : max offset.toNat (offset.toNat / c * c) = offset.toNat := by
      have hmul := Nat.div_mul_le_self offset.toNat c
      omega
    rw [hstart, Nat.add_sub_cancel' hfirst, ← slice_keys hlast, ← hfirstIndex, ← hstopIndex]
      at hread
    have hlength : UInt64.ofNat (slice body offset.toNat stop.toNat).length = stop - offset := by
      apply UInt64.toNat_inj.mp
      rw [length_slice hle, toNat_sub (by omega), toNat_ofNat (by omega)]
    refine ⟨⟨slice body offset.toNat stop.toNat,
      .positional (chunkKeys c body) (metadataKey c body.length), offset, stop,
      UInt64.ofNat body.length, UInt64.ofNat c⟩,
        bind_eq_ok.mpr ⟨_, hgeometry, (if_neg hempty).trans ?_⟩, ⟨rfl, hstop, htotal, ?_⟩⟩
    · subst hs
      exact bind_eq_ok.mpr ⟨_, hread,
        bind_eq_ok.mpr ⟨(), reject_eq_ok.mpr (not_not.mpr hlength), rfl⟩⟩
    · rw [← hstop]

theorem chunkSize_of_readTypedRange (hc : 0 < c) (hc' : c < 2 ^ 63) (hbody : 0 < body.length)
    (hsize : body.length < 2 ^ 64)
    (hmetadata : Holds blocks (ChunkJson.marshal (geometry c body.length)))
    {retained : Option (List UInt8)}
    (hretained : ∀ data, retained = some data → data = ChunkJson.marshal (geometry c body.length))
    {offset : UInt64} {length : Option UInt64} {result : ReadResult}
    (h : readTypedRange blocks (chunkKeys c body) (metadataKey c body.length) offset length
      retained = .ok result) :
    result.chunkSize = UInt64.ofNat c := by
  have hgeometry := readChunkMetadata_geometry hc hc' hbody hsize hmetadata hretained
  unfold readTypedRange at h
  simp only [hgeometry, bind_eq_ok] at h
  obtain ⟨_, hg, h⟩ := h
  cases hg
  split_ifs at h
  · cases h
    rfl
  · simp only [ok_iff] at h
    obtain ⟨_, -, _, -, rfl⟩ := h
    rfl

theorem readStatFile_of_stored (hinj : Function.Injective rawCid) (hc : 0 < c) (hc' : c < 2 ^ 63)
    (hsize : body.length < 2 ^ 64) {payload : Payload} (h : Stored blocks c body payload) {s : Stat}
    (hs : s.payload = payload) (hretains : Retains s c body) (offset : UInt64)
    (length : Option UInt64) :
    ∃ result, readStatFile blocks s offset length = .ok result ∧
      Answers result body offset length := by
  cases h with
  | raw hsmall hbody =>
    have hload : loadBody blocks (rawCid body) s.rawBody = .ok body := by
      cases hraw : s.rawBody with
      | none => exact getBoundBlock_of_holds hbody
      | some data =>
        rw [hretains.1 data hraw]
        rfl
    obtain ⟨stop, hrange, hstop⟩ := rawRange_spec hsize offset length
    refine ⟨⟨_, .raw (rawCid body), offset, stop, UInt64.ofNat body.length, 0⟩, ?_,
      ⟨rfl, hstop, toNat_ofNat (by omega), rfl⟩⟩
    rw [readStatFile, hs]
    exact bind_eq_ok.mpr ⟨_, hload, bind_eq_ok.mpr ⟨_, hrange, rfl⟩⟩
  | chunked hlarge hchunks hmetadata =>
    rw [readStatFile, hs]
    exact readTypedRange_spec hinj hc hc' (by omega) hsize hchunks hmetadata hretains.2
      offset length

theorem stat_of_stored (hc : 0 < c) (hc' : c < 2 ^ 63) (hsize : body.length < 2 ^ 64)
    {payload : Payload} (h : Stored blocks c body payload) :
    ∃ s, stat blocks payload = .ok s ∧ s.payload = payload ∧ Retains s c body ∧ s.size.toNat =
      body.length := by
  have htotal : (UInt64.ofNat body.length).toNat = body.length := toNat_ofNat (by omega)
  cases h with
  | raw hsmall hbody =>
    refine ⟨_, bind_eq_ok.mpr ⟨_, getBoundBlock_of_holds hbody, rfl⟩, rfl,
      ⟨fun data hdata => ?_, fun data hdata => ?_⟩, htotal⟩
    · exact (Option.some.inj hdata).symm
    · cases hdata
  | chunked hlarge hchunks hmetadata =>
    have hgeometry :=
      @readChunkMetadata_geometry _ _ _ blocks body c _ hc hc' (by omega) hsize hmetadata none
      (fun data hdata => by cases hdata)
    refine ⟨_, bind_eq_ok.mpr ⟨_, hgeometry, rfl⟩, rfl,
      ⟨fun data hdata => ?_, fun data hdata => ?_⟩, htotal⟩
    · cases hdata
    · exact (Option.some.inj hdata).symm

/-- A body that is stored, whole or in chunks of any size, is read back as
slices: every range returns the bytes from its offset to its end, for a stat of
the file and for a mere lookup. -/
theorem readStatFile_slices (hinj : Function.Injective rawCid) (spare : Nat → Nat) (flusher : Bool)
    (blocks : Blocks) (reader : Reader) (chunkSize : Nat) (hchunk : 0 < chunkSize)
    (hint : chunkSize < 2 ^ 63) (hsize : reader.flatten.length < 2 ^ 63) :
    ((∀ d, blocks.refuses d = false) → ∃ blocks' payload,
      storeBody spare flusher blocks reader reader.flatten.length chunkSize =
        .ok (blocks', payload)) ∧
    ∀ blocks' payload, storeBody spare flusher blocks reader reader.flatten.length chunkSize =
      .ok (blocks', payload) →
      ∃ s, stat blocks' payload = .ok s ∧ s.size.toNat = reader.flatten.length ∧
        ∀ offset length,
          (∃ result, readStatFile blocks' s offset length = .ok result ∧
            Answers result reader.flatten offset length) ∧
          ∃ result, readStatFile blocks' (lookup payload) offset length = .ok result ∧
            Answers result reader.flatten offset length := by
  have hsize := Nat.lt_trans hsize (show 2 ^ 63 < 2 ^ 64 by norm_num)
  have hsucceeds :=
    @succeeds_materialize _ _ ⟨reader, blocks, none⟩ hinj _ _ spare flusher hchunk hint hsize
  refine ⟨fun haccepts => ?_, fun blocks' payload h => ?_⟩
  · rcases hsucceeds with ⟨⟨d, hd⟩, -⟩ | ⟨r, s', hr, -⟩
    · cases (haccepts d).symm.trans hd
    · exact ⟨_, _, storeBody_eq hr⟩
  have hstored : Stored blocks' chunkSize reader.flatten payload := by
    rcases hsucceeds with ⟨-, e, s', he⟩ | ⟨r, s', hr, -, hstored⟩
    · rw [storeBody, he] at h
      cases h
    · cases h.symm.trans (storeBody_eq hr)
      exact hstored
  obtain ⟨s, hstat, hpayload, hretains, hlength⟩ := stat_of_stored hchunk hint hsize hstored
  have hlookup : Retains (lookup payload) chunkSize reader.flatten := by
    constructor
    · intro data hdata
      cases hdata
    · intro data hdata
      cases hdata
  refine ⟨s, hstat, hlength, fun offset length => ⟨?_, ?_⟩⟩
  · exact readStatFile_of_stored hinj hchunk hint hsize hstored hpayload hretains offset length
  · exact readStatFile_of_stored hinj hchunk hint hsize hstored rfl hlookup offset length

end answers

end hashed

section sample

/-- Metadata documents in unary: a byte 1 for each byte of a chunk, a byte 2 for
each byte of the file, and a byte 3 for the mode and each of its steps. -/
@[reducible] def ChunkJson.unary : ChunkJson where
  marshal m := List.replicate m.chunkSize.toNat 1 ++ List.replicate m.totalSize.toNat 2 ++
    List.replicate (m.mode.elim 0 fun mode => mode.toNat + 1) 3
  unmarshal body :=
    some { profile := chunkMetadataProfile,
           chunkSize := UInt64.ofNat (body.count 1),
           totalSize := UInt64.ofNat (body.count 2),
           mode := if body.count 3 = 0 then none else some (UInt32.ofNat (body.count 3 - 1)) }
  unmarshal_marshal m h := by
    obtain ⟨profile, chunkSize, totalSize, mode⟩ := m
    obtain rfl : profile = chunkMetadataProfile := h
    cases mode <;> simp [List.count_append, List.count_replicate]

@[reducible] def InlineBody.never [CidFormat] [PayloadHash] : InlineBody where
  inline _ := none
  inline_rawCid h := by cases h

section

attribute [local instance] CidFormat.verbatim PayloadHash.verbatim ChunkJson.unary InlineBody.never

theorem rawCid_verbatim_injective :
    Function.Injective rawCid := by
  intro a b h
  have hbody : spellBody a = spellBody b := congrArg Cid.spelling h
  have hbyte : ∀ n < 256, (Char.ofNat (0x4e00 + n)).toNat = 0x4e00 + n := by decide +kernel
  refine List.map_injective_iff.mpr ?_ (List.cons.inj hbody).2
  intro x y hxy
  have hchar := congrArg Char.toNat (Rune.char.inj hxy)
  rw [hbyte _ x.toNat_lt, hbyte _ y.toNat_lt] at hchar
  exact UInt8.toNat_inj.mp (Nat.add_left_cancel hchar)

theorem readStatFile_slices_five :
    ∃ blocks payload s result,
      storeBody (fun _ => 511) true ⟨∅, fun _ => false⟩ [[1, 2], [3, 4, 5]] 5 2 =
        .ok (blocks, payload) ∧
      stat blocks payload = .ok s ∧ readStatFile blocks s 1 (some 3) = .ok result ∧ result.body =
        [2, 3, 4] := by
  obtain ⟨hstore, hread⟩ := readStatFile_slices rawCid_verbatim_injective (fun _ => 511) true ⟨∅,
    fun _ => false⟩
    [[1, 2], [3, 4, 5]] 2 (by decide) (by decide) (by decide)
  obtain ⟨blocks, payload, hpayload⟩ := hstore fun _ => rfl
  obtain ⟨s, hstat, -, hranges⟩ := hread blocks payload hpayload
  obtain ⟨⟨result, hresult, hanswers⟩, -⟩ := hranges 1 (some 3)
  exact ⟨blocks, payload, s, result, hpayload, hstat, hresult, hanswers.bytes⟩

end

end sample

end MaltClient.Payloads
