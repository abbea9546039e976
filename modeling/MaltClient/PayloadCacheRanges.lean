import MaltClient.PayloadCacheEffects

/-! Reading a range of a local body: the bytes are captured piece by piece while
the whole stream is verified. -/

namespace MaltClient.PayloadCache

open GoText Checked AssocMap FaultyIO FaultyIO.Prog Slices
open Cache (Binding normalizeBinding maxInt sumsBody)

namespace RangeCapture

variable {w : RangeCapture} {chunk seen : List UInt8} {chunks : List (List UInt8)}
  {offset : UInt64} {n : Nat}

def copyStart (w : RangeCapture) : UInt64 := if w.seen < w.offset then w.offset else w.seen

def copyEnd (w : RangeCapture) (chunk : List UInt8) : UInt64 :=
  if w.offset + UInt64.ofNat w.body.length < w.seen + UInt64.ofNat chunk.length then
    w.offset + UInt64.ofNat w.body.length
  else w.seen + UInt64.ofNat chunk.length

/-- The sums of `Write` do not wrap, its differences are not negative, and what
it slices of the chunk and of the buffer lies in them. -/
structure InBounds (w : RangeCapture) (chunk : List UInt8) : Prop where
  fits : chunk.length ≤ maxInt ∧ w.body.length ≤ maxInt
  stop : (w.seen + UInt64.ofNat chunk.length).toNat = w.seen.toNat + chunk.length
  wantedEnd : (w.offset + UInt64.ofNat w.body.length).toNat = w.offset.toNat + w.body.length
  copy : ¬ (w.seen + UInt64.ofNat chunk.length ≤ w.offset ∨
    w.offset + UInt64.ofNat w.body.length ≤ w.seen) →
    w.seen ≤ w.copyStart ∧ w.offset ≤ w.copyStart ∧ w.copyStart ≤ w.copyEnd chunk ∧
      (w.copyEnd chunk - w.seen).toNat ≤ chunk.length ∧ (w.copyEnd chunk - w.offset).toNat ≤
        w.body.length

/-- The buffer for some bytes from an offset, after a part of the stream. -/
structure Captured (start : UInt64) (n : Nat) (stream : List UInt8) (w : RangeCapture) : Prop where
  offset : w.offset = start
  seen : w.seen.toNat = stream.length
  length : w.body.length = n
  copied : w.copied = (slice stream start.toNat (start.toNat + n)).length
  body : w.body.take w.copied = slice stream start.toNat (start.toNat + n)

theorem toNat_add_ofNat {a : UInt64} {k : Nat} (h : a.toNat + k < 2 ^ 64) :
    (a + UInt64.ofNat k).toNat = a.toNat + k := by
  rw [UInt64.toNat_add, UInt64.toNat_ofNat', Nat.add_mod_mod, Nat.mod_eq_of_lt h]

theorem toNat_copyStart (w : RangeCapture) :
    w.copyStart.toNat = max w.offset.toNat w.seen.toNat := by
  rw [copyStart]
  split_ifs with h <;> rw [UInt64.lt_iff_toNat_lt] at h <;> omega

theorem toNat_copyEnd (w : RangeCapture) (chunk : List UInt8) : (w.copyEnd chunk).toNat =
    min (w.offset + UInt64.ofNat w.body.length).toNat (w.seen +
      UInt64.ofNat chunk.length).toNat := by
  rw [copyEnd]
  split_ifs with h <;> rw [UInt64.lt_iff_toNat_lt] at h <;> omega

section write

variable (h : Captured offset n seen w) (hfit : seen.length + chunk.length ≤ maxInt)
  (hrange : offset.toNat + n < 2 ^ 64) (hn : n ≤ maxInt)

include h hfit hrange hn

theorem Captured.inBounds : w.InBounds chunk := by
  have hlength := h.length
  have hseen := h.seen
  have hoffset := congrArg UInt64.toNat h.offset
  have hstop : (w.seen + UInt64.ofNat chunk.length).toNat = w.seen.toNat + chunk.length :=
    toNat_add_ofNat (by rw [maxInt] at hfit; omega)
  have hend : (w.offset + UInt64.ofNat w.body.length).toNat = w.offset.toNat + w.body.length :=
    toNat_add_ofNat (by omega)
  refine ⟨by omega, hstop, hend, fun hcopy => ?_⟩
  rw [UInt64.le_iff_toNat_le, UInt64.le_iff_toNat_le, hstop, hend] at hcopy
  have hstart := w.toNat_copyStart
  have hcopyEnd := w.toNat_copyEnd chunk
  rw [hstop, hend] at hcopyEnd
  have hseenLe : w.seen ≤ w.copyEnd chunk := by rw [UInt64.le_iff_toNat_le]; omega
  have hoffsetLe : w.offset ≤ w.copyEnd chunk := by rw [UInt64.le_iff_toNat_le]; omega
  rw [UInt64.toNat_sub_of_le _ _ hseenLe, UInt64.toNat_sub_of_le _ _ hoffsetLe]
  simp only [UInt64.le_iff_toNat_le]
  omega

/-- What a piece adds to the buffer is what it adds to the range. -/
theorem Captured.write : Captured offset n (seen ++ chunk) (w.write chunk) := by
  obtain ⟨-, hstop, hend, hcopy⟩ := h.inBounds hfit hrange hn
  have hlength := h.length
  have hseen := h.seen
  have hoffset := congrArg UInt64.toNat h.offset
  set added :=
    (chunk.drop (offset.toNat - seen.length)).take (n - (seen.length - offset.toNat)) with hadded
  have hsplit : slice (seen ++ chunk) offset.toNat (offset.toNat + n) =
      slice seen offset.toNat (offset.toNat + n) ++ added := by
    simp [slice, List.drop_append, List.take_append, hadded]
  have hbefore : w.copied = min n (seen.length - offset.toNat) := by
    simp [h.copied, slice]
  have hcount : added.length = min (n - (seen.length - offset.toNat))
    (chunk.length - (offset.toNat - seen.length)) := by
    simp [hadded]
  have hseen' : (w.seen + UInt64.ofNat chunk.length).toNat = (seen ++ chunk).length := by
    rw [hstop, h.seen, List.length_append]
  by_cases hskip :
    w.seen + UInt64.ofNat chunk.length ≤ w.offset ∨ w.offset + UInt64.ofNat w.body.length ≤ w.seen
  · -- the piece ends before the range or begins after it
    have hwrite :
      w.write chunk = { w with seen := w.seen + UInt64.ofNat chunk.length } := if_pos hskip
    rw [UInt64.le_iff_toNat_le, UInt64.le_iff_toNat_le, hstop, hend] at hskip
    have hnone : added = [] := List.length_eq_zero_iff.mp (by omega)
    rw [hnone, List.append_nil] at hsplit
    rw [hwrite]
    exact ⟨h.offset, hseen', h.length, by rw [hsplit, h.copied], by rw [hsplit, h.body]⟩
  · obtain ⟨hseenLe, hoffsetLe, hle, -⟩ := hcopy hskip
    have hwrite : w.write chunk = { w with
        seen := w.seen + UInt64.ofNat chunk.length
        body := _
        copied := _ } := if_neg hskip
    have hstart := w.toNat_copyStart
    have hcopyEnd := w.toNat_copyEnd chunk
    rw [UInt64.le_iff_toNat_le, UInt64.le_iff_toNat_le, hstop, hend] at hskip
    rw [hstop, hend] at hcopyEnd
    have hdest : (w.copyStart - w.offset).toNat = w.copied := by
      rw [UInt64.toNat_sub_of_le _ _ hoffsetLe]
      omega
    have hsource : (slice chunk (w.copyStart - w.seen).toNat (w.copyEnd chunk - w.seen).toNat).take
        (w.body.length - w.copied) = added := by
      have hfrom : w.copyStart.toNat - w.seen.toNat = offset.toNat - seen.length := by omega
      rw [slice, List.take_take, UInt64.toNat_sub_of_le _ _ hseenLe,
        UInt64.toNat_sub_of_le _ _ (UInt64.le_trans hseenLe hle), hfrom, hadded,
          List.take_eq_take_iff, List.length_drop]
      omega
    simp only [← copyStart.eq_1, ← copyEnd.eq_1, hdest, hsource] at hwrite
    rw [hwrite]
    have htake : (w.body.take w.copied).length = w.copied := by
      rw [List.length_take]
      omega
    refine ⟨h.offset, hseen', ?_, ?_, ?_⟩
    · simp only [List.length_append, List.length_drop, htake]
      omega
    · rw [hsplit, List.length_append, ← h.copied]
    · rw [hsplit, ← h.body, List.take_append_of_le_length, List.take_of_length_le] <;>
        rw [List.length_append, htake]

end write

theorem captured_after (hrange : offset.toNat + n < 2 ^ 64) (hn : n ≤ maxInt)
    (hfit : chunks.flatten.length ≤ maxInt) :
    Captured offset n chunks.flatten (after offset n chunks) := by
  induction chunks using List.reverseRecOn with
  | nil => exact ⟨rfl, rfl, List.length_replicate, by simp [after, slice], by simp [after, slice]⟩
  | append_singleton chunks chunk ih =>
    rw [List.flatten_concat, List.length_append] at hfit
    rw [List.flatten_concat, after, List.foldl_concat]
    exact (ih (by omega)).write hfit hrange hn

end RangeCapture

open RangeCapture

theorem toNat_wantedBytes (size offset length : UInt64) :
    (wantedBytes size offset length).toNat = min (offset.toNat + length.toNat) size.toNat -
      offset.toNat := by
  have hadd : (offset + length).toNat = (offset.toNat + length.toNat) % 2 ^ 64 :=
    UInt64.toNat_add _ _
  have hlength := length.toNat_lt
  have hsize := size.toNat_lt
  unfold wantedBytes
  by_cases hsome : length ≠ 0 ∧ offset < size
  · rw [if_pos hsome]
    obtain ⟨-, hlt⟩ := hsome
    rw [UInt64.lt_iff_toNat_lt] at hlt
    by_cases hclip : offset + length < offset ∨ size < offset + length
    · simp only [if_pos hclip]
      rw [UInt64.lt_iff_toNat_lt, UInt64.lt_iff_toNat_lt] at hclip
      rw [UInt64.toNat_sub_of_le _ _ (UInt64.le_iff_toNat_le.mpr hlt.le)]
      omega
    · simp only [if_neg hclip]
      rw [UInt64.lt_iff_toNat_lt, UInt64.lt_iff_toNat_lt] at hclip
      rw [UInt64.toNat_sub_of_le _ _ (UInt64.le_iff_toNat_le.mpr (by omega))]
      omega
  · rw [if_neg hsome, UInt64.toNat_zero]
    rw [not_and_or, not_not, ← UInt64.toNat_inj, UInt64.lt_iff_toNat_lt, UInt64.toNat_zero] at hsome
    omega

section capture

variable {data : List UInt8} {offset length : UInt64} {pieces : Pieces}
  {pre post : List (List UInt8)} {n size : Nat}
  (hsize : size ≤ maxInt) (hn : n = min (offset.toNat + length.toNat) size - offset.toNat)

include hsize

theorem toNat_wantedBytes_ofNat (offset length : UInt64) :
    (wantedBytes (UInt64.ofNat size) offset length).toNat =
      min (offset.toNat + length.toNat) size - offset.toNat := by
  rw [toNat_wantedBytes, UInt64.toNat_ofNat', Nat.mod_eq_of_lt (by rw [maxInt] at hsize; omega)]

include hn

theorem captured_split (hdata : data.length ≤ size) (hsplit : pieces.split data = pre ++ post) :
    Captured offset n pre.flatten (after offset n pre) := by
  have hflat := congrArg List.length (pieces.flatten_split data)
  rw [hsplit, List.flatten_append, List.length_append] at hflat
  have hoffset := offset.toNat_lt
  rw [maxInt] at hsize
  exact captured_after (by omega) (by rw [maxInt]; omega) (by rw [maxInt]; omega)

theorem inBounds_split {chunk : List UInt8} (hdata : data.length ≤ size)
    (hsplit : pieces.split data = pre ++ chunk :: post) : (after offset n pre).InBounds chunk := by
  have hflat := congrArg List.length (pieces.flatten_split data)
  rw [hsplit, List.flatten_append, List.flatten_cons, List.length_append, List.length_append]
    at hflat
  have hoffset := offset.toNat_lt
  have hcaptured := captured_split hsize hn hdata hsplit
  rw [maxInt] at hsize
  exact hcaptured.inBounds (by rw [maxInt]; omega) (by omega) (by rw [maxInt]; omega)

theorem after_split (hdata : data.length = size) : (after offset n (pieces.split data)).copied = n ∧
    (after offset n (pieces.split data)).body =
      slice data offset.toNat (min (offset.toNat + length.toNat) size) := by
  obtain ⟨-, -, hlength, hcopied, hbody⟩ :=
    captured_split hsize hn hdata.le (List.append_nil (pieces.split data)).symm
  rw [pieces.flatten_split] at hcopied hbody
  have hslice : slice data offset.toNat (offset.toNat + n) =
      slice data offset.toNat (min (offset.toNat + length.toNat) size) := by
    rw [slice, slice, Nat.add_sub_cancel_left, hn]
  have hall : (after offset n (pieces.split data)).copied = n := by
    rw [hcopied, slice, List.length_take, List.length_drop]
    omega
  rw [hall, List.take_of_length_le hlength.le, hslice] at hbody
  exact ⟨hall, hbody⟩

end capture

variable [CidFormat] [BindingHash] [PayloadHash]

theorem leaves_readLocalRange (pieces : Pieces) (raw : Binding) (offset length maxBytes : UInt64)
    (d : Disk) : Leaves (readLocalRange pieces raw offset length maxBytes)
      (Changed (.readLocalRange pieces raw offset length maxBytes) d.files) (fun r _ => ∃ b m data,
      normalizeBinding raw = .ok b ∧ loaded d.files = .ok m ∧ m.lookup (bindingID b) = some r.2 ∧
      d.blobs.lookup (bindingID b) = some data ∧ (data.length : Int) = r.2.size ∧ data.length ≤
        maxBytes.toNat ∧
      sumsBody r.2.binding.cid data = true ∧
      r.1 = slice data offset.toNat (min (offset.toNat + length.toNat) data.length)) d := by
  refine leaves_checked_bind (.inl rfl) fun b hb => leaves_section fun m u hm hu hquiet => ?_
  refine leaves_checked_bind hquiet fun entry hentry => ?_
  refine leaves_bind (leaves_openBoundedLocalBodyLocked hquiet) fun _ v hv hopen => ?_
  obtain ⟨hfiles, -, -, hlimit, hint, -⟩ := hopen
  refine leaves_checked_bind hv fun _ _ => leaves_bind (leaves_readOpened hv)
    fun data w hw hread => ?_
  refine leaves_checked_bind hw fun _ hstream => leaves_checked_bind hw fun _ _ => ?_
  rw [leaves_pure, Saved, if_neg Bool.false_ne_true]
  obtain ⟨hsize, hsum⟩ := verifyLocalStream_eq_ok.mp hstream
  have hnat : entry.size.toNat = data.length := by omega
  have hfit : data.length ≤ maxInt := by omega
  rw [hnat, List.take_length] at hsum
  rw [hnat, List.take_length]
  refine ⟨hw, b, m, data, hb, hm, required_eq_ok.mp hentry, hu.body_eq ?_, hsize,
    by omega, hsum, ?_⟩
  · rw [← hfiles]
    exact hread.2
  · exact (after_split hfit (toNat_wantedBytes_ofNat hfit offset length) rfl).2

omit [BindingHash] [PayloadHash] in
/-- The buffer that `readLocalRange` allocates once the file is open, and its
writes to it, whatever the file then gives. -/
theorem after_openBounded {id : GoString} {entry : Entry} {maxBytes : UInt64} {u v : Disk}
    (hopen : Runs (openBoundedLocalBodyLocked id entry maxBytes) u (.done ()) v) (pieces : Pieces)
    (offset length : UInt64) :
    (∃ data, u.blobs.lookup id = some data ∧ (data.length : Int) = entry.size) ∧
      ∃ n, n = (wantedBytes (UInt64.ofNat entry.size.toNat) offset length).toNat ∧
        n = min (offset.toNat + length.toNat) entry.size.toNat - offset.toNat ∧
        ∀ data : List UInt8,
          (entry.size ≤ data.length →
            (after offset n (pieces.split (data.take entry.size.toNat))).copied = n) ∧
          ∀ pre chunk post, pieces.split (data.take entry.size.toNat) = pre ++ chunk :: post →
            (after offset n pre).body.length = n ∧ (after offset n pre).InBounds chunk := by
  have hleaves : Leaves (openBoundedLocalBodyLocked id entry maxBytes) (fun _ => True) _ u :=
    leaves_openBoundedLocalBodyLocked trivial
  obtain ⟨-, -, -, -, hint, hstored⟩ := hleaves.done hopen
  have hfit : entry.size.toNat ≤ maxInt := by omega
  have hn := toNat_wantedBytes_ofNat hfit offset length
  refine ⟨hstored, _, rfl, hn, fun data => ⟨fun hdata => ?_, fun pre chunk post hsplit => ?_⟩⟩
  · exact (after_split hfit hn (List.length_take_of_le (by omega))).1
  · have htake : (data.take entry.size.toNat).length ≤ entry.size.toNat := List.length_take_le _ _
    exact ⟨(captured_split hfit hn htake hsplit).length, inBounds_split hfit hn htake hsplit⟩

theorem readLocalRange_exact (pieces : Pieces) (raw : Binding) (offset length maxBytes : UInt64)
    (d : Disk) :
    (∀ id entry u v, Runs (openBoundedLocalBodyLocked id entry maxBytes) u (.done ()) v →
      (∃ data, u.blobs.lookup id = some data ∧ (data.length : Int) = entry.size) ∧
      ∃ n, n = (wantedBytes (UInt64.ofNat entry.size.toNat) offset length).toNat ∧
        n = min (offset.toNat + length.toNat) entry.size.toNat - offset.toNat ∧
        ∀ data : List UInt8,
          (entry.size ≤ data.length →
            (after offset n (pieces.split (data.take entry.size.toNat))).copied = n) ∧
          ∀ pre chunk post, pieces.split (data.take entry.size.toNat) = pre ++ chunk :: post →
            (after offset n pre).body.length = n ∧ (after offset n pre).InBounds chunk) ∧
    ∀ body entry d', Runs (readLocalRange pieces raw offset length maxBytes) d
      (.done (body, entry)) d' → ∃ b m data, normalizeBinding raw = .ok b ∧ loaded d.files = .ok m ∧
        m.lookup (bindingID b) = some entry ∧
        d.blobs.lookup (bindingID b) = some data ∧ (data.length : Int) = entry.size ∧ data.length ≤
          maxBytes.toNat ∧
        sumsBody entry.binding.cid data = true ∧
        body = slice data offset.toNat (min (offset.toNat + length.toNat) data.length) :=
  ⟨fun _ _ _ _ hopen => after_openBounded hopen pieces offset length,
    fun _ _ _ hr => (leaves_readLocalRange pieces raw offset length maxBytes d).done hr⟩

end MaltClient.PayloadCache
