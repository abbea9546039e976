import MaltClient.ChunkedReads

/-! Storing a stream of a declared size. The reader may cut the stream in any way
and report anything with what it delivers; the stored payload has to be the
declared number of bytes. -/

namespace MaltClient.DeclaredSizes

open Dialogue Payloads Slices

section

variable {data : List UInt8} {want remaining : Nat}

theorem isEnd_shortError (data : List UInt8) (err : ReadError) :
    (shortError data err).isEnd = err.isEnd := by
  unfold shortError
  split_ifs with h
  · rw [h.2]
    rfl
  · rfl

theorem fullPart_data {err : ReadError} : (fullPart want data err remaining).data = data := by
  unfold fullPart
  split_ifs <;> rfl

theorem fullPart_remaining {err : ReadError} :
    (fullPart want data err remaining).remaining = remaining := by
  unfold fullPart
  split_ifs <;> rfl

def blockOf (data : List UInt8) : List (List UInt8) := if data = [] then [] else [data]

theorem chunked_blockOf {c : Nat} (hc : 0 < c) (hfull : data.length = c)
    {blocks : List (List UInt8)} (h : blocks = [] ∨ Chunked c blocks) :
    Chunked c (blockOf data ++ blocks) := by
  have hdata : data ≠ [] := List.ne_nil_of_length_pos (by omega)
  rw [blockOf, if_neg hdata]
  rcases h with rfl | h
  · exact .last (by omega) (by omega)
  · exact .cons hfull h

theorem flatten_blockOf (data : List UInt8) : (blockOf data).flatten = data := by
  unfold blockOf
  split_ifs with h
  · rw [h]
    rfl
  · simp

theorem blockOf_short {c : Nat} (h : data.length ≤ c) :
    blockOf data = [] ∨ Chunked c (blockOf data) := by
  unfold blockOf
  split_ifs with hdata
  · exact .inl rfl
  · exact .inr (.last (List.length_pos_of_ne_nil hdata) h)

theorem validateComplete_eq_ok {expected : Nat} {u : Unit} :
    validateComplete expected remaining = .ok u ↔ remaining = 0 := by
  simp [validateComplete]

end

section

variable [CidFormat]

/-! ### What a trace says -/

def deliveredBy : Exchange Answer → List UInt8
  | ⟨.read _, answer⟩ => answer.count.data
  | _ => []

def delivered (trace : List (Exchange Answer)) : List UInt8 := trace.flatMap deliveredBy

def putBy : Exchange Answer → Option (List UInt8)
  | ⟨.put data, _⟩ => some data
  | _ => none

def puts (trace : List (Exchange Answer)) : List (List UInt8) := trace.filterMap putBy

def reportBy : Exchange Answer → Option (Option ReadError)
  | ⟨.read _, answer⟩ => some answer.err
  | _ => none

def lastReport (trace : List (Exchange Answer)) : Option (Option ReadError) :=
  (trace.filterMap reportBy).getLast?

def Fits : Exchange Answer → Prop
  | ⟨.read room, answer⟩ => answer.count.data.length ≤ room
  | _ => True

def Within (declared : Nat) (trace : List (Exchange Answer)) : Prop :=
  ∀ before room answer after, trace = before ++ ⟨.read room, answer⟩ :: after →
    (delivered before).length + room ≤ declared + 1

/-- The reader has delivered another number of bytes than declared, or has claimed
more than it could. -/
def Spoiled (declared : Nat) (trace : List (Exchange Answer)) : Prop :=
  (∀ e ∈ trace, Fits e) → (delivered trace).length ≠ declared

variable {trace rest : List (Exchange Answer)} {remaining remaining' remaining'' : Nat}
  {data more : List UInt8}

@[simp] theorem delivered_append : delivered (trace ++ rest) = delivered trace ++ delivered rest :=
  List.flatMap_append

@[simp] theorem puts_append : puts (trace ++ rest) = puts trace ++ puts rest :=
  List.filterMap_append

theorem lastReport_append {report : Option ReadError} (h : lastReport rest = some report) :
    lastReport (trace ++ rest) = some report := by
  rw [lastReport, List.filterMap_append, List.getLast?_append]
  rw [lastReport] at h
  rw [h]
  rfl

theorem Within.append (h : Within remaining trace) (hle : (delivered trace).length ≤ remaining)
    (h' : Within (remaining - (delivered trace).length) rest) :
    Within remaining (trace ++ rest) := by
  intro before room answer after heq
  rcases List.append_eq_append_iff.mp heq with ⟨tail, rfl, htail⟩ | ⟨tail, rfl, htail⟩
  · have hroom := h' tail room answer after htail
    rw [delivered_append, List.length_append]
    omega
  · cases tail with
    | nil =>
      have hroom := h' [] room answer after (by simpa using htail.symm)
      rw [List.append_nil] at hle hroom
      have hnil : (delivered ([] : List (Exchange Answer))).length = 0 := rfl
      omega
    | cons first tail =>
      obtain ⟨rfl, -⟩ := List.cons_eq_cons.mp htail
      exact h before room answer tail rfl

/-- A stretch of calls that is as it should be: the bytes that are delivered in it
and the blocks that are given to the store. -/
structure Reading (remaining : Nat) (trace : List (Exchange Answer)) (data : List UInt8)
    (blocks : List (List UInt8)) (remaining' : Nat) : Prop where
  within : Within remaining trace
  fits : ∀ e ∈ trace, Fits e
  delivered : delivered trace = data
  count : remaining = remaining' + data.length
  puts : puts trace = blocks

variable {blocks blocks' : List (List UInt8)}

theorem Reading.nil (remaining : Nat) : Reading remaining [] [] [] remaining := by
  refine ⟨?_, by simp, rfl, rfl, rfl⟩
  intro before room answer after h
  simp at h

theorem Reading.within_append (h : Reading remaining trace data blocks remaining')
    (h' : Within remaining' rest) : Within remaining (trace ++ rest) := by
  have hcount := h.count
  refine h.within.append (by rw [h.delivered]; omega) ?_
  have hrest :
    remaining - (DeclaredSizes.delivered trace).length = remaining' := by rw [h.delivered]; omega
  rwa [hrest]

theorem Reading.append (h : Reading remaining trace data blocks remaining')
    (h' : Reading remaining' rest more blocks' remaining'') :
    Reading remaining (trace ++ rest) (data ++ more) (blocks ++ blocks') remaining'' where
  within := h.within_append h'.within
  fits e he := (List.mem_append.mp he).elim (h.fits e) (h'.fits e)
  delivered := by rw [delivered_append, h.delivered, h'.delivered]
  count := by
    have hcount := h.count
    have hcount' := h'.count
    rw [List.length_append]
    omega
  puts := by rw [puts_append, h.puts, h'.puts]

theorem Reading.spoiled_append (h : Reading remaining trace data blocks remaining')
    (h' : Spoiled remaining' rest) : Spoiled remaining (trace ++ rest) := by
  intro hfits hlength
  have hcount := h.count
  refine h' (fun e he => hfits e (List.mem_append_right _ he)) ?_
  rw [delivered_append, List.length_append, h.delivered] at hlength
  omega

def isQuiet : Question → Bool
  | .read _ => false
  | _ => true

theorem deliveredBy_quiet {e : Exchange Answer} (h : isQuiet e.question = true) :
    deliveredBy e = [] := by
  obtain ⟨q, answer⟩ := e
  cases q with
  | read room => cases h
  | _ => rfl

theorem reportBy_quiet {e : Exchange Answer} (h : isQuiet e.question = true) :
    reportBy e = none := by
  obtain ⟨q, answer⟩ := e
  cases q with
  | read room => cases h
  | _ => rfl

theorem Reading.quiet (remaining : Nat) (h : ∀ e ∈ trace, isQuiet e.question = true) :
    Reading remaining trace [] (DeclaredSizes.puts trace) remaining := by
  refine ⟨?_, ?_, ?_, rfl, rfl⟩
  · rintro before room answer after rfl
    cases h ⟨.read room, answer⟩ (by simp)
  · intro e he
    obtain ⟨q, answer⟩ := e
    cases q with
    | read room => cases h _ he
    | _ => trivial
  · exact List.flatMap_eq_nil_iff.mpr fun e he => deliveredBy_quiet (h e he)

theorem lastReport_append_quiet (h : ∀ e ∈ rest, isQuiet e.question = true) :
    lastReport (trace ++ rest) = lastReport trace := by
  have hnone : rest.filterMap reportBy = [] :=
    List.filterMap_eq_nil_iff.mpr fun e he => reportBy_quiet (h e he)
  rw [lastReport, List.filterMap_append, hnone, List.append_nil, lastReport]

/-! ### The readers -/

variable {expected room : Nat} {result : Except StreamError Part}

def Refused (remaining : Nat) (trace : List (Exchange Answer)) (err : Option ReadError) : Prop :=
  Within remaining trace ∧ Spoiled remaining trace ∧ ∃ e, err = some e ∧ e.isEnd = false

theorem within_single {answer : ReadAnswer} (h : room ≤ remaining + 1) :
    Within remaining [⟨.read room, answer⟩] := by
  intro before room' answer' after heq
  cases before with
  | nil =>
    cases heq
    simpa [delivered] using h
  | cons first before => simp at heq

theorem declaredRead_runs (h : Runs (declaredRead expected remaining room) trace result) :
    ∃ part, result = .ok part ∧
      ((Reading remaining trace part.data [] part.remaining ∧ part.data.length ≤ room ∧
        lastReport trace = some part.err) ∨ part.data = [] ∧ Refused remaining trace part.err) := by
  unfold declaredRead at h
  split_ifs at h with hzero
  · obtain ⟨answer, rfl, rfl⟩ := runs_attempt.mp h
    have hwithin : Within remaining [⟨.read 1, answer⟩] := within_single (by omega)
    refine ⟨_, rfl, ?_⟩
    unfold extraPart
    split_ifs with hextra
    · refine .inl ⟨⟨hwithin, ?_, ?_, ?_, rfl⟩, Nat.zero_le _, rfl⟩
      · intro e he
        rw [List.mem_singleton.mp he]
        show answer.count.data.length ≤ 1
        rw [hextra]
        exact Nat.zero_le 1
      · simp [delivered, deliveredBy, hextra]
      · rw [hzero]
        rfl
    · refine .inr ⟨rfl, hwithin, fun _ hlength => ?_, _, rfl, rfl⟩
      rw [hzero] at hlength
      exact hextra (by simpa [delivered, deliveredBy] using hlength)
  · obtain ⟨answer, rfl, rfl⟩ := runs_attempt.mp h
    have hwithin : Within remaining [⟨.read (min room remaining), answer⟩] :=
      within_single (by omega)
    refine ⟨_, rfl, ?_⟩
    unfold countedPart
    obtain ⟨count, err⟩ := answer
    cases count with
    | negative =>
      refine .inr ⟨rfl, hwithin, fun _ hlength => ?_, _, rfl, rfl⟩
      exact hzero hlength.symm
    | bytes data =>
      by_cases hlong : min room remaining < data.length
      · refine .inr ⟨by simp [hlong], hwithin, fun hfits _ => ?_, .invalidCount,
          by simp [hlong], rfl⟩
        have hfit : data.length ≤ min room remaining := hfits _ (List.mem_singleton.mpr rfl)
        omega
      · simp only [if_neg hlong]
        refine .inl ⟨⟨hwithin, ?_, by simp [delivered, deliveredBy, Count.data], by omega, rfl⟩,
          by omega, rfl⟩
        intro e he
        rw [List.mem_singleton.mp he]
        show data.length ≤ min room remaining
        omega

theorem Reading.refused_append {err : Option ReadError}
    (h : Reading remaining trace data blocks remaining')
    (h' : Refused remaining' rest err) : Refused remaining (trace ++ rest) err :=
  ⟨h.within_append h'.1, h.spoiled_append h'.2.1, h'.2.2⟩

variable {want fuel : Nat} {got : List UInt8}

/-- How `io.ReadFull` returns: with a full buffer, or with the error that has
ended it before. -/
def Filled (want : Nat) (trace : List (Exchange Answer)) (part : Part) : Prop :=
  (part.err = none ∧ part.data.length = want) ∨
    ∃ err, lastReport trace = some (some err) ∧ part.err = some (shortError part.data err) ∧
      part.data.length < want

theorem Filled.append {part : Part} (h : Filled want rest part) :
    Filled want (trace ++ rest) part := by
  rcases h with h | ⟨err, hreport, herr⟩
  · exact .inl h
  · exact .inr ⟨err, lastReport_append hreport, herr⟩

theorem filled_fullPart {err : ReadError} (hle : data.length ≤ want)
    (hreport : lastReport trace = some (some err)) :
    Filled want trace (fullPart want data err remaining) := by
  unfold fullPart
  split_ifs with hwant
  · exact .inl ⟨rfl, le_antisymm hle hwant⟩
  · exact .inr ⟨err, hreport, rfl, not_le.mp hwant⟩

theorem readFull_runs (hgot : got.length ≤ want)
    (h : Runs (readFull expected want fuel remaining got) trace result) :
    (result = .error .cut ∧ Within remaining trace) ∨
      ∃ part, result = .ok part ∧
        ((∃ data, part.data = got ++ data ∧ Reading remaining trace data [] part.remaining ∧
          Filled want trace part) ∨ Refused remaining trace part.err) := by
  induction fuel generalizing remaining got trace with
  | zero =>
    rw [readFull] at h
    split_ifs at h with hfull
    · obtain ⟨rfl, rfl⟩ := runs_pure.mp h
      refine .inr ⟨_, rfl, .inl ⟨[], by simp, .nil remaining, .inl ⟨rfl, le_antisymm hgot hfull⟩⟩⟩
    · obtain ⟨rfl, rfl⟩ := runs_stop.mp h
      exact .inl ⟨rfl, (Reading.nil remaining).within⟩
  | succ fuel ih =>
    rw [readFull] at h
    split_ifs at h with hfull
    · obtain ⟨rfl, rfl⟩ := runs_pure.mp h
      refine .inr ⟨_, rfl, .inl ⟨[], by simp, .nil remaining, .inl ⟨rfl, le_antisymm hgot hfull⟩⟩⟩
    · rcases runs_bind.mp h with ⟨e, he, -⟩ | ⟨part, first, rest, rfl, hpart, hnext⟩
      · obtain ⟨part, hok, -⟩ := declaredRead_runs he
        cases hok
      · obtain ⟨_, hok, hread⟩ := declaredRead_runs hpart
        cases hok
        obtain ⟨data, err, remaining'⟩ := part
        cases err with
        | none =>
          rcases hread with ⟨hread, hlength, -⟩ | ⟨-, -, -, e, he, -⟩
          · have hgot' : (got ++ data).length ≤ want := by
              rw [List.length_append]
              change data.length ≤ want - got.length at hlength
              omega
            rcases ih hgot' hnext with ⟨rfl, hwithin⟩ | ⟨part, rfl,
              ⟨data', hdata, hrest, hfilled⟩ | hrefused⟩
            · exact .inl ⟨rfl, hread.within_append hwithin⟩
            · refine .inr ⟨part, rfl, .inl ⟨data ++ data', by rw [hdata, List.append_assoc], ?_,
                hfilled.append⟩⟩
              exact hread.append hrest
            · exact .inr ⟨part, rfl, .inr (hread.refused_append hrefused)⟩
          · cases he
        | some err =>
          obtain ⟨rfl, rfl⟩ := runs_pure.mp hnext
          rw [List.append_nil]
          refine .inr ⟨_, rfl, ?_⟩
          rcases hread with ⟨hread, hlength, hreport⟩ | ⟨hdata, hwithin, hspoiled, e, he, hend⟩
          · change data.length ≤ want - got.length at hlength
            have hle : (got ++ data).length ≤ want := by
              rw [List.length_append]
              omega
            exact .inl ⟨data, fullPart_data, fullPart_remaining.symm ▸ hread,
              filled_fullPart hle hreport⟩
          · cases he
            change data = [] at hdata
            subst hdata
            refine .inr ⟨hwithin, hspoiled, shortError got err, ?_, by rw [isEnd_shortError, hend]⟩
            simp [fullPart, hfull]

/-! ### Whole streams -/

/-- Why a stream is refused: the bytes are not those declared, or the reader has
ended with an error that is not among the ends. -/
def Failed (ends : ReadError → Prop) (declared : Nat) (trace : List (Exchange Answer)) : Prop :=
  Spoiled declared trace ∨ ∃ err, lastReport trace = some (some err) ∧ ¬ ends err

variable {ends : ReadError → Prop}

theorem Reading.failed_append (h : Reading remaining trace data blocks remaining')
    (h' : Failed ends remaining' rest) : Failed ends remaining (trace ++ rest) := by
  rcases h' with hspoiled | ⟨err, hreport, hends⟩
  · exact .inl (h.spoiled_append hspoiled)
  · exact .inr ⟨err, lastReport_append hreport, hends⟩

theorem Reading.spoiled (h : Reading remaining trace data blocks remaining')
    (hleft : remaining' ≠ 0) : Spoiled remaining trace := by
  intro _ hlength
  have hcount := h.count
  rw [h.delivered] at hlength
  omega

theorem incomplete_runs {β : Type} {next : Unit → Stream β} {result : Except StreamError β}
    (hleft : remaining ≠ 0)
    (h : Runs (Prog.stop (validateComplete expected remaining) >>= next) trace result) :
    trace = [] ∧ result = .error (.incomplete (expected - remaining) expected) := by
  rw [validateComplete, Checked.reject, if_pos hleft] at h
  exact runs_stop.mp h

theorem readAll_runs {spare : Nat → Nat} {result : Except StreamError (List UInt8 × Nat)}
    (h : Runs (readAll spare expected fuel remaining got) trace result) :
    Within remaining trace ∧
      (∀ read, result = .ok read → ∃ data, read.1 = got ++ data ∧
        Reading remaining trace data [] read.2 ∧ lastReport trace = some (some .eof)) ∧
      (∀ e, result = .error e → e ≠ .cut → Failed (· = .eof) remaining trace) := by
  induction fuel generalizing remaining got trace with
  | zero =>
    obtain ⟨rfl, rfl⟩ := runs_stop.mp h
    exact ⟨(Reading.nil remaining).within, by simp, fun e he hcut =>
      absurd (Except.error.inj he).symm hcut⟩
  | succ fuel ih =>
    rcases runs_bind.mp h with ⟨e, he, -⟩ | ⟨part, first, rest, rfl, hpart, hnext⟩
    · obtain ⟨part, hok, -⟩ := declaredRead_runs he
      cases hok
    · obtain ⟨_, hok, hread⟩ := declaredRead_runs hpart
      cases hok
      obtain ⟨data, err, remaining'⟩ := part
      rcases hread with ⟨hread, -, hreport⟩ | ⟨-, hwithin, hspoiled, e, he, hend⟩
      · rcases err with _ | err
        · obtain ⟨hwithin, hok, herr⟩ := ih hnext
          refine ⟨hread.within_append hwithin, fun read hresult => ?_, fun e hresult hcut => ?_⟩
          · obtain ⟨data', hdata, hrest, hreport'⟩ := hok read hresult
            refine ⟨data ++ data', by rw [hdata, List.append_assoc], ?_, lastReport_append hreport'⟩
            exact hread.append hrest
          · exact hread.failed_append (herr e hresult hcut)
        · simp only at hnext
          split_ifs at hnext with heof
          · obtain ⟨rfl, rfl⟩ := runs_pure.mp hnext
            rw [List.append_nil]
            refine ⟨hread.within, fun read hresult => ?_, by simp⟩
            cases hresult
            exact ⟨data, rfl, hread, heof ▸ hreport⟩
          · obtain ⟨rfl, rfl⟩ := runs_stop.mp hnext
            rw [List.append_nil]
            exact ⟨hread.within, by simp, fun _ _ _ => .inr ⟨err, hreport, heof⟩⟩
      · change err = some e at he
        subst he
        have heof : e ≠ .eof := by
          rintro rfl
          cases hend
        simp only [if_neg heof] at hnext
        obtain ⟨rfl, rfl⟩ := runs_stop.mp hnext
        rw [List.append_nil]
        exact ⟨hwithin, by simp, fun _ _ _ => .inl hspoiled⟩

theorem putChunk_asks (chunks : List Cid) (data : List UInt8) :
    Asks (isQuiet · = true) (putChunk chunks data) := by
  unfold putChunk
  split_ifs
  · trivial
  · exact .bind (.attempt rfl) fun _ => trivial

theorem putChunk_runs (remaining : Nat) {chunks : List Cid} {result : Except StreamError (List Cid)}
    (h : Runs (putChunk chunks data) trace result) :
    Reading remaining trace [] (blockOf data) remaining ∧
      (∀ chunks', result = .ok chunks' → chunks'.length = chunks.length + (blockOf data).length) ∧
      (∀ e, result = .error e → ⟨.put data, .error e⟩ ∈ trace) := by
  have hquiet := Reading.quiet remaining ((putChunk_asks chunks data).runs h)
  unfold putChunk at h
  unfold blockOf
  split_ifs at h ⊢ with hdata
  · obtain ⟨rfl, rfl⟩ := runs_pure.mp h
    refine ⟨hquiet, fun chunks' hok => ?_, by simp⟩
    cases hok
    rfl
  · rcases runs_bind.mp h with ⟨e, he, rfl⟩ | ⟨key, first, rest, rfl, hkey, hnext⟩
    · obtain ⟨answer, rfl, rfl⟩ := runs_attempt.mp he
      refine ⟨hquiet, by simp, fun e' he' => ?_⟩
      cases he'
      exact List.mem_singleton.mpr rfl
    · obtain ⟨answer, rfl, -⟩ := runs_attempt.mp hkey
      obtain ⟨rfl, rfl⟩ := runs_pure.mp hnext
      refine ⟨hquiet, fun chunks' hok => ?_, by simp⟩
      cases hok
      simp

theorem flushBlocks_asks (flusher : Bool) : Asks (isQuiet · = true) (flushBlocks flusher) := by
  unfold flushBlocks
  split_ifs
  · exact .attempt rfl
  · trivial

def Stores [PayloadHash] : Exchange Answer → Prop
  | ⟨.read _, _⟩ => True
  | ⟨.put data, answer⟩ => answer = .ok (rawCid data)
  | ⟨.flush, answer⟩ => answer = .ok ()
  | ⟨.create _ _, answer⟩ => ∃ key, answer = .ok key

variable [PayloadHash]

theorem streamPayloadChunks_runs {chunkSize calls : Nat} {chunks : List Cid}
    {result : Except StreamError (List Cid × Nat)} (hc : 0 < chunkSize)
    (h : Runs (streamPayloadChunks expected chunkSize calls fuel remaining chunks) trace result) :
    Within remaining trace ∧
      (∀ read, result = .ok read → ∃ data blocks, Reading remaining trace data blocks read.2 ∧
        blocks.flatten = data ∧ (blocks = [] ∨ Chunked chunkSize blocks) ∧
        read.1.length = chunks.length + blocks.length ∧
        ∃ err, lastReport trace = some (some err) ∧ err.isEnd = true) ∧
      (∀ e, result = .error e → e ≠ .cut → (∀ x ∈ trace, Stores x) →
        Failed (fun err => err.isEnd = true) remaining trace) := by
  induction fuel generalizing remaining chunks trace with
  | zero =>
    obtain ⟨rfl, rfl⟩ := runs_stop.mp h
    exact ⟨(Reading.nil remaining).within, by simp, fun e he hcut =>
      absurd (Except.error.inj he).symm hcut⟩
  | succ fuel ih =>
    rcases runs_bind.mp h with ⟨e, he, rfl⟩ | ⟨part, first, rest, rfl, hpart, hnext⟩
    · rcases readFull_runs (Nat.zero_le _) he with ⟨hcut, hwithin⟩ | ⟨_, hok, -⟩
      · cases hcut
        exact ⟨hwithin, by simp, fun e he hcut => absurd (Except.error.inj he).symm hcut⟩
      · cases hok
    · rcases readFull_runs (Nat.zero_le _) hpart with ⟨hcut, -⟩ | ⟨_, hok, hread⟩
      · cases hcut
      · cases hok
        obtain ⟨data', err, remaining'⟩ := part
        rcases hread with ⟨data, hdata, hread, hfilled⟩ | ⟨hwithin, hspoiled, e, he, hend⟩
        · change data' = data at hdata
          subst hdata
          rcases hfilled with ⟨herr, hfull⟩ | ⟨last, hreport, herr, hshort⟩
          · -- a full buffer: the loop goes on
            change err = none at herr
            subst herr
            rcases runs_bind.mp hnext with ⟨e, he, rfl⟩ | ⟨chunks', stored, after, rfl, hput, hloop⟩
            · obtain ⟨hputs, -, hmem⟩ := putChunk_runs remaining' he
              refine ⟨(hread.append hputs).within, by simp, fun e' he' _ hstores => ?_⟩
              cases hstores _ (List.mem_append_right _ (hmem e rfl))
            · obtain ⟨hputs, hcount, -⟩ := putChunk_runs remaining' hput
              obtain ⟨hwithin, hok, hfail⟩ := ih hloop
              have hstep := hread.append hputs
              rw [List.append_nil, List.nil_append] at hstep
              rw [← List.append_assoc]
              refine ⟨hstep.within_append hwithin, fun read hresult => ?_,
                fun e he hcut hstores => ?_⟩
              · obtain ⟨more, blocks, hrest, hflat, hchunked, hlength, last, hreport, hend⟩ :=
                  hok read hresult
                refine ⟨_, _, hstep.append hrest, ?_, .inr (chunked_blockOf hc hfull hchunked),
                  ?_, last, lastReport_append hreport, hend⟩
                · rw [List.flatten_append, flatten_blockOf, hflat]
                · rw [hlength, hcount chunks' rfl, List.length_append, Nat.add_assoc]
              · exact hstep.failed_append (hfail e he hcut fun x hx =>
                  hstores x (List.mem_append_right _ hx))
          · change err = some (shortError data' last) at herr
            subst herr
            simp only [isEnd_shortError] at hnext
            split_ifs at hnext with hend
            · rcases runs_bind.mp hnext with ⟨e, he, rfl⟩ | ⟨chunks', stored, after, rfl,
                hput, hreturn⟩
              · obtain ⟨hputs, -, hmem⟩ := putChunk_runs remaining' he
                refine ⟨(hread.append hputs).within, by simp, fun e' he' _ hstores => ?_⟩
                cases hstores _ (List.mem_append_right _ (hmem e rfl))
              · obtain ⟨rfl, rfl⟩ := runs_pure.mp hreturn
                obtain ⟨hputs, hcount, -⟩ := putChunk_runs remaining' hput
                have hstep := hread.append hputs
                rw [List.append_nil, List.nil_append] at hstep
                rw [List.append_nil]
                refine ⟨hstep.within, fun read hresult => ?_, by simp⟩
                cases hresult
                refine ⟨_, _, hstep, flatten_blockOf data', blockOf_short (le_of_lt hshort),
                  hcount chunks' rfl, last, ?_, hend⟩
                rw [lastReport_append_quiet ((putChunk_asks _ _).runs hput), hreport]
            · obtain ⟨rfl, rfl⟩ := runs_stop.mp hnext
              rw [List.append_nil]
              exact ⟨hread.within, by simp, fun _ _ _ _ => .inr ⟨last, hreport, hend⟩⟩
        · change err = some e at he
          subst he
          simp only [hend] at hnext
          obtain ⟨rfl, rfl⟩ := runs_stop.mp hnext
          rw [List.append_nil]
          exact ⟨hwithin, by simp, fun _ _ _ _ => .inl hspoiled⟩

/-! ### Stored payloads -/

/-- How a call that stores a stream ends: with the declared bytes, stored and ended
as they should be, or because the reader has failed. -/
structure Settles (ends : ReadError → Prop) (layout : List (List UInt8) → List UInt8 → Prop)
    (declared : Nat) (trace : List (Exchange Answer)) (result : Except StreamError Cid) : Prop where
  within : Within declared trace
  stored : ∀ key, result = .ok key → (∀ e ∈ trace, Fits e) ∧ (delivered trace).length = declared ∧
    layout (puts trace) (delivered trace) ∧ ∃ err, lastReport trace = some (some err) ∧ ends err
  failed : ∀ e, result = .error e → e ≠ .cut → (∀ x ∈ trace, Stores x) → Failed ends declared trace

theorem materializeRaw_runs {spare : Nat → Nat} {size : Nat} {result : Except StreamError Cid}
    (h : Runs (materializeRaw spare fuel size) trace result) :
    Settles (· = .eof) (fun blocks data => blocks = [data]) size trace result := by
  rcases runs_bind.mp h with ⟨e, he, rfl⟩ | ⟨read, first, rest, rfl, hread, hnext⟩
  · obtain ⟨hwithin, -, hfail⟩ := readAll_runs he
    refine ⟨hwithin, by simp, fun e he hcut _ => ?_⟩
    cases he
    exact hfail e rfl hcut
  · obtain ⟨-, hok, -⟩ := readAll_runs hread
    obtain ⟨data, hdata, hreading, hreport⟩ := hok read rfl
    rw [List.nil_append] at hdata
    have hcount := hreading.count
    by_cases hzero : read.2 = 0
    · rw [runs_stop_bind ((validateComplete_eq_ok (u := ())).mpr hzero)] at hnext
      obtain ⟨answer, rfl, rfl⟩ := runs_attempt.mp hnext
      have hquiet : ∀ e ∈ [(⟨.put read.1, result⟩ : Exchange Answer)], isQuiet e.question =
        true := by simp [isQuiet]
      have hall := hreading.append (Reading.quiet read.2 hquiet)
      rw [List.append_nil] at hall
      refine ⟨hall.within, fun key hkey => ⟨hall.fits, ?_, ?_, .eof, ?_, rfl⟩,
        fun e he _ hstores => ?_⟩
      · rw [hall.delivered]
        omega
      · rw [hall.puts, hall.delivered, ← hdata]
        rfl
      · exact (lastReport_append_quiet hquiet).trans hreport
      · have hstored : result = .ok (rawCid read.1) := hstores ⟨.put read.1, result⟩ (by simp)
        rw [hstored] at he
        cases he
    · obtain ⟨rfl, rfl⟩ := incomplete_runs hzero hnext
      rw [List.append_nil]
      exact ⟨hreading.within, by simp, fun _ _ _ _ => .inl (hreading.spoiled hzero)⟩

variable {flusher : Bool} {totalSize chunkSize : Nat} {keys : List Cid}

theorem flushBlocks_runs {result : Except StreamError Unit}
    (h : Runs (flushBlocks flusher) trace result) :
    puts trace = [] ∧ ((∀ x ∈ trace, Stores x) → result = .ok ()) := by
  unfold flushBlocks at h
  split_ifs at h
  · obtain ⟨answer, rfl, rfl⟩ := runs_attempt.mp h
    exact ⟨rfl, fun hstores => hstores ⟨.flush, result⟩ (by simp)⟩
  · obtain ⟨rfl, rfl⟩ := runs_pure.mp h
    exact ⟨rfl, fun _ => rfl⟩

variable [ChunkJson]

theorem finishMeasured_asks (flusher : Bool) (totalSize chunkSize : Nat) (keys : List Cid) :
    Asks (isQuiet · = true) (finishMeasured flusher totalSize chunkSize keys) := by
  refine .bind trivial fun _ => .bind trivial fun _ => .bind (.attempt rfl) fun _ => ?_
  exact .bind trivial fun _ => .bind (flushBlocks_asks flusher) fun _ => .attempt rfl

theorem finishMeasured_puts {key : Cid}
    (h : Runs (finishMeasured flusher totalSize chunkSize keys) trace (.ok key)) :
    puts trace = [ChunkJson.marshal (geometry chunkSize totalSize)] := by
  obtain ⟨_, t₀, _, rfl, hkeys, h₀⟩ := runs_bind_ok.mp h
  obtain ⟨metadata, t₁, _, rfl, hmetadata, h₁⟩ := runs_bind_ok.mp h₀
  obtain ⟨payload, t₂, _, rfl, hput, h₂⟩ := runs_bind_ok.mp h₁
  obtain ⟨_, t₃, _, rfl, hverify, h₃⟩ := runs_bind_ok.mp h₂
  obtain ⟨_, t₄, t₅, rfl, hflush, hcreate⟩ := runs_bind_ok.mp h₃
  obtain ⟨rfl, -⟩ := runs_stop.mp hkeys
  obtain ⟨rfl, hencode⟩ := runs_stop.mp hmetadata
  obtain ⟨_, rfl, -⟩ := runs_attempt.mp hput
  obtain ⟨rfl, -⟩ := runs_stop.mp hverify
  obtain ⟨_, rfl, -⟩ := runs_attempt.mp hcreate
  have hmarshal : metadata = ChunkJson.marshal (geometry chunkSize totalSize) := by
    have hencode' := Checked.mapError_eq_ok.mp hencode.symm
    simp only [encodeChunkMetadata, Checked.ok_iff] at hencode'
    obtain ⟨-, -, heq⟩ := hencode'
    exact heq.symm
  rw [← hmarshal]
  simp only [puts_append, (flushBlocks_runs hflush).1]
  rfl

theorem finishMeasured_succeeds {result : Except StreamError Cid}
    (h : Runs (finishMeasured flusher totalSize chunkSize keys) trace result)
    (hstores : ∀ x ∈ trace, Stores x) (hkeys : keys ≠ [])
    (hvalid : (geometry chunkSize totalSize).validate (UInt64.ofNat keys.length) = .ok ()) :
    ∃ key, result = .ok key := by
  have hencode :
    encodeChunkMetadata (UInt64.ofNat totalSize) (UInt64.ofNat chunkSize)
      (UInt64.ofNat keys.length) = .ok (ChunkJson.marshal (geometry chunkSize totalSize)) :=
        Checked.bind_eq_ok.mpr ⟨(), hvalid, rfl⟩
  rw [finishMeasured, runs_stop_bind ((Checked.reject_eq_ok (u := ())).mpr hkeys),
    runs_stop_bind (Checked.mapError_eq_ok.mpr hencode)] at h
  rcases runs_bind.mp h with ⟨e, he, rfl⟩ | ⟨payload, first, rest, rfl, hput, hnext⟩
  · obtain ⟨answer, rfl, rfl⟩ := runs_attempt.mp he
    cases hstores _ (List.mem_singleton.mpr rfl)
  · obtain ⟨answer, rfl, hanswer⟩ := runs_attempt.mp hput
    have hpayload : payload = rawCid (ChunkJson.marshal (geometry chunkSize totalSize)) := by
      have hstored : answer = .ok (rawCid (ChunkJson.marshal (geometry chunkSize totalSize))) :=
        hstores _ (List.mem_append_left _ (List.mem_singleton.mpr rfl))
      exact Except.ok.inj (hanswer.trans hstored)
    have hverify :
      verifyPayloadCID payload (ChunkJson.marshal (geometry chunkSize totalSize)) = .ok () :=
      Checked.reject_eq_ok.mpr (by rw [hpayload, PayloadHash.sums_rawCid]; simp)
    rw [runs_stop_bind (Checked.mapError_eq_ok.mpr hverify)] at hnext
    have hstores' : ∀ x ∈ rest, Stores x := fun x hx => hstores x (List.mem_append_right _ hx)
    rcases runs_bind.mp hnext with ⟨e, he, rfl⟩ | ⟨_, flushed, created, rfl, -, hcreate⟩
    · cases (flushBlocks_runs he).2 hstores'
    · obtain ⟨answer, rfl, rfl⟩ := runs_attempt.mp hcreate
      exact hstores' ⟨.create keys payload, result⟩ (by simp)

theorem materializeMeasuredPayload_runs (hc : 0 < chunkSize) (hc' : chunkSize < 2 ^ 63)
    (hlarge : chunkSize < totalSize) (htotal : totalSize < 2 ^ 63) {result : Except StreamError Cid}
    (h : Runs (materializeMeasuredPayload flusher fuel totalSize chunkSize) trace result) :
    Settles (fun err => err.isEnd = true)
      (fun blocks data => blocks = chunks chunkSize data ++
        [ChunkJson.marshal (geometry chunkSize totalSize)])
      totalSize trace result := by
  rcases runs_bind.mp h with ⟨e, he, rfl⟩ | ⟨read, first, rest, rfl, hread, hnext⟩
  · obtain ⟨hwithin, -, hfail⟩ := streamPayloadChunks_runs hc he
    refine ⟨hwithin, by simp, fun e he hcut hstores => ?_⟩
    cases he
    exact hfail e rfl hcut hstores
  · obtain ⟨-, hok, -⟩ := streamPayloadChunks_runs hc hread
    obtain ⟨data, blocks, hreading, hflat, hchunked, hcount, last, hreport, hend⟩ := hok read rfl
    have htotal' := hreading.count
    by_cases hzero : read.2 = 0
    · rw [runs_stop_bind ((validateComplete_eq_ok (u := ())).mpr hzero)] at hnext
      have hquiet := (finishMeasured_asks _ _ _ _).runs hnext
      have hall := hreading.append (Reading.quiet read.2 hquiet)
      rw [List.append_nil] at hall
      have hlength : data.length = totalSize := by omega
      have hchunked' : Chunked chunkSize blocks := by
        rcases hchunked with rfl | hchunked
        · rw [← hflat] at hlength
          simp at hlength
          omega
        · exact hchunked
      have hblocks : chunks chunkSize data = blocks := by rw [← hflat, hchunked'.chunks_flatten hc]
      refine ⟨hall.within, fun key hkey => ⟨hall.fits, ?_, ?_, last, ?_, hend⟩,
        fun e he _ hstores => ?_⟩
      · rw [hall.delivered, hlength]
      · subst hkey
        show puts (first ++ rest) = chunks chunkSize (delivered (first ++ rest)) ++ _
        rw [hall.puts, hall.delivered, hblocks, finishMeasured_puts hnext]
      · rw [lastReport_append_quiet hquiet, hreport]
      · have hkeys : read.1.length = chunkCount chunkSize data := by
          rw [hcount, ← length_chunks, hblocks]
          simp
        have hne : read.1 ≠ [] := by
          intro hnil
          have hpos := hchunked'.length_pos
          rw [hnil, ← length_chunks, hblocks] at hkeys
          simp at hkeys
          omega
        have hvalid :
          (geometry chunkSize data.length).validate (UInt64.ofNat (chunkCount chunkSize data)) =
            .ok () :=
          validate_geometry hc hc' (by omega) (by omega)
        rw [hlength, ← hkeys] at hvalid
        obtain ⟨key, hkey⟩ := finishMeasured_succeeds hnext (fun x hx =>
          hstores x (List.mem_append_right _ hx)) hne hvalid
        rw [hkey] at he
        cases he
    · obtain ⟨rfl, rfl⟩ := incomplete_runs hzero hnext
      rw [List.append_nil]
      exact ⟨hreading.within, by simp, fun _ _ _ _ => .inl (hreading.spoiled hzero)⟩

/-- What is given to the store for a stream of this size: the bytes as one block,
or full chunks and a last one, followed by the metadata. -/
def StoredAs (size chunkSize : Int) (trace : List (Exchange Answer)) : Prop :=
  if size ≤ chunkSize then puts trace = [delivered trace]
  else ∃ blocks, puts trace = blocks ++ [ChunkJson.marshal (geometry chunkSize.toNat size.toNat)] ∧
    Chunked chunkSize.toNat blocks ∧ blocks.flatten = delivered trace

/-- A reader that has delivered what was declared and then ends a chunked stream
with an error that is not `io.EOF`. -/
def EndsOtherwise (size chunkSize : Int) (trace : List (Exchange Answer)) : Prop :=
  chunkSize < size ∧ (delivered trace).length = size.toNat ∧ (∀ e ∈ trace, Fits e) ∧
    ∃ err, lastReport trace = some (some err) ∧ err.isEnd = true ∧ err ≠ .eof

/-- What is stored is what was declared, and no more than one byte after it is asked
for. The end of the stream is `io.EOF` exactly unless a chunked stream ends otherwise. -/
theorem materialize_declared_iff {spare : Nat → Nat} {size chunkSize : Int}
    {result : Except StreamError (Cid × Bool)}
    (hc : 0 < chunkSize) (hc' : chunkSize < 2 ^ 63) (hsize : size < 2 ^ 63)
    (h : Runs (materializeStagedFilePayload spare flusher fuel size chunkSize) trace result)
    (hstores : ∀ x ∈ trace, Stores x) (hreturns : result ≠ .error .cut) :
    Within size.toNat trace ∧
      (∀ payload, result = .ok payload → ((delivered trace).length : Int) = size ∧
        StoredAs size chunkSize trace) ∧
      ((∀ payload, result = .ok payload → lastReport trace = some (some .eof)) ↔
        ¬ EndsOtherwise size chunkSize trace) := by
  unfold materializeStagedFilePayload at h
  split_ifs at h with hnegative hwidth hsmall
  · obtain ⟨rfl, rfl⟩ := runs_stop.mp h
    refine ⟨(Reading.nil _).within, by simp, by simp [EndsOtherwise]; omega⟩
  · omega
  · obtain ⟨r, hr, rfl⟩ := runs_map.mp h
    obtain ⟨hwithin, hstored, -⟩ := materializeRaw_runs hr
    refine ⟨hwithin, fun payload hok => ?_, ?_⟩
    · obtain ⟨key, rfl, -⟩ := Checked.map_eq_ok.mp hok
      obtain ⟨-, hlength, hlayout, -⟩ := hstored key rfl
      refine ⟨by omega, ?_⟩
      rw [StoredAs, if_pos hsmall]
      exact hlayout
    · refine ⟨fun _ hother => ?_, fun _ payload hok => ?_⟩
      · have hlarge := hother.1
        omega
      · obtain ⟨key, rfl, -⟩ := Checked.map_eq_ok.mp hok
        obtain ⟨-, -, -, err, hreport, rfl⟩ := hstored key rfl
        exact hreport
  · obtain ⟨r, hr, rfl⟩ := runs_map.mp h
    obtain ⟨hwithin, hstored, hfailed⟩ := materializeMeasuredPayload_runs (by omega) (by omega)
      (by omega) (by omega) hr
    refine ⟨hwithin, fun payload hok => ?_, ?_⟩
    · obtain ⟨key, rfl, -⟩ := Checked.map_eq_ok.mp hok
      obtain ⟨-, hlength, hlayout, -⟩ := hstored key rfl
      have hne : delivered trace ≠ [] := List.ne_nil_of_length_pos (by omega)
      refine ⟨by omega, ?_⟩
      rw [StoredAs, if_neg hsmall]
      exact ⟨_, hlayout, chunked_chunks (by omega) hne, flatten_chunks (by omega) _⟩
    · constructor
      · rintro heof ⟨-, hlength, hfits, err, hreport, hend, hne⟩
        cases r with
        | error e =>
          have hcut : e ≠ .cut := by
            rintro rfl
            exact hreturns rfl
          rcases hfailed e rfl hcut hstores with hspoiled | ⟨last, hlast, hend'⟩
          · exact hspoiled hfits hlength
          · cases hreport.symm.trans hlast
            exact hend' hend
        | ok key =>
          cases hreport.symm.trans (heof _ rfl)
          exact hne rfl
      · intro hother payload hok
        obtain ⟨key, rfl, -⟩ := Checked.map_eq_ok.mp hok
        obtain ⟨hfits, hlength, -, err, hreport, hend⟩ := hstored key rfl
        by_cases heof : err = .eof
        · rw [hreport, heof]
        · exact absurd ⟨by omega, hlength, hfits, err, hreport, hend, heof⟩ hother

end

section sample

attribute [local instance] CidFormat.verbatim PayloadHash.verbatim ChunkJson.unary

/-- The reader of two bytes that ends with the given error, and a store that takes
everything. -/
def twoBytes (last : ReadError) :
    Nat → (q : Question) → Answer q :=
  fun i q => match q with
  | .read _ => if i < 4 then ⟨.bytes [7], none⟩ else ⟨.bytes [], some last⟩
  | .put data => .ok (rawCid data)
  | .flush => .ok ()
  | .create _ metadata => .ok metadata

def storedTwo (last : ReadError) :
    List (Exchange Answer) × Except StreamError (Cid × Bool) :=
  (materializeStagedFilePayload (fun _ => 511) true 3 2 1).exec (twoBytes last) 0

theorem storedTwo_runs (last : ReadError) :
    Runs (materializeStagedFilePayload (fun _ => 511) true 3 2 1)
      (storedTwo last).1 (storedTwo last).2 ∧ ∀ x ∈ (storedTwo last).1, Stores x := by
  refine ⟨runs_exec _ 0, forall_mem_exec (fun i q => ?_) 0⟩
  cases q with
  | read room => trivial
  | put data => exact rfl
  | flush => exact rfl
  | create chunks metadata => exact ⟨metadata, rfl⟩

/-- A stream that breaks off after the declared size is stored. -/
theorem truncated_stored :
    ∃ trace payload, Runs (materializeStagedFilePayload (fun _ => 511) true 3 2 1) trace
      (.ok payload) ∧ (∀ x ∈ trace, Stores x) ∧ lastReport trace = some (some .unexpectedEOF) := by
  obtain ⟨hruns, hstores⟩ := storedTwo_runs .unexpectedEOF
  obtain ⟨payload, hok⟩ := Checked.exists_of_isOk (x := (storedTwo .unexpectedEOF).2)
    (by decide +kernel)
  rw [hok] at hruns
  exact ⟨_, payload, hruns, hstores, by decide +kernel⟩

theorem materialize_declared_iff_two :
    (storedTwo .eof).2.isOk = true ∧ StoredAs 2 1 (storedTwo .eof).1 := by
  obtain ⟨hruns, hstores⟩ := storedTwo_runs .eof
  have hok : (storedTwo .eof).2.isOk = true := rfl
  obtain ⟨payload, hpayload⟩ := Checked.exists_of_isOk hok
  have hreturns : (storedTwo .eof).2 ≠ .error .cut := by
    rw [hpayload]
    simp
  exact ⟨hok,
    ((materialize_declared_iff (by decide) (by decide) (by decide) hruns hstores hreturns).2.1
      payload
    hpayload).2⟩

end sample

end MaltClient.DeclaredSizes
