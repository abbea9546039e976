import MaltClient.PayloadCacheRanges

/-! Runs of any number of stores on one cache directory, wherever their calls
fail or stop: an entry is verified only by a call that has checked its body. -/

namespace MaltClient.PayloadCache

open GoText Checked AssocMap FaultyIO FaultyIO.Prog
open Cache (Binding normalizeBinding sumsBody)

section runs

variable [CidFormat] [BindingHash] [PayloadHash]

/-- What a locked section may leave of a disk, with any outcome. -/
inductive Acts (d d' : Disk) : Action → Prop where
  | recordRemote (h : Runs (recordRemote now raw) d o d') : Acts d d' (.recordRemote now raw)
  | putVerified (h : Runs (putVerified now raw body ev) d o d') :
      Acts d d' (.putVerified now raw body ev)
  | putLocal (h : Runs (putLocal now raw body state) d o d') :
      Acts d d' (.putLocal now raw body state)
  | readSection (hb : normalizeBinding raw = .ok b) (h : Runs (readLocked now b) d o d') :
      Acts d d' (.readSection now raw)
  | invalidate (hb : normalizeBinding raw = .ok b) (h : Runs (invalidate now b ev) d o d') :
    Acts d d' (.invalidate now raw ev)
  | readLocalBounded (h : Runs (readLocalBounded raw limit) d o d') :
      Acts d d' (.readLocalBounded raw limit)
  | verifyLocal (h : Runs (verifyLocal raw limit) d o d') : Acts d d' (.verifyLocal raw limit)
  | readLocalRange (h : Runs (readLocalRange pieces raw offset length limit) d o d') :
    Acts d d' (.readLocalRange pieces raw offset length limit)
  | inspect (h : Runs (inspect raw) d o d') : Acts d d' (.inspect raw)
  | list (h : Runs list d o d') : Acts d d' .list
  | transition (h : Runs (transition now raw next) d o d') : Acts d d' (.transition now raw next)
  | reconcileLocalState (h : Runs (reconcileLocalStateBounded now raw next limit) d o d') :
    Acts d d' (.reconcileLocalState now raw next limit)
  | remove (h : Runs (remove raw) d o d') : Acts d d' (.remove raw)

/-- A run from a directory without metadata, with the calls that fail or stop. -/
inductive Reached : List Action → Disk → Prop where
  | fresh {d : Disk} (h : d.metadata = none) : Reached [] d
  | call (h : Reached calls d) (hc : Acts d d' c) : Reached (calls ++ [c]) d'

variable {m m' : Metadata} {c : Action} {f f' : Files} {id : GoString} {e : Entry}
  {calls : List Action} {d d' : Disk}

/-- One of the calls was given the evidence of the entry, for this binding and with
a body that has its payload identifier. -/
def Verified (calls : List Action) (id : GoString) (e : Entry) : Prop :=
  ∃ now raw b body evidence, .putVerified now raw body evidence ∈ calls ∧
    normalizeBinding raw = .ok b ∧
    bindingID b = id ∧ sumsBody b.cid body = true ∧ e.size = body.length ∧
    e.verification = some { evidence with profile := trimSpace evidence.profile }

def Sourced (calls : List Action) (m : Metadata) : Prop :=
  ∀ id e, m.lookup id = some e → e.state = some .verifiedClean → Verified calls id e

theorem Sourced.later (h : Sourced calls m) (c : Action) : Sourced (calls ++ [c]) m := by
  intro id e hl he
  obtain ⟨now, raw, b, body, evidence, hmem, hrest⟩ := h id e hl he
  exact ⟨now, raw, b, body, evidence, List.mem_append_left _ hmem, hrest⟩

theorem Sourced.insert (h : Sourced calls m) (he : e.state = some .verifiedClean →
    Verified calls id e) : Sourced calls (m.insert id e) := by
  intro id' e' hl
  rw [lookup_insert_eq] at hl
  split_ifs at hl with hid
  · cases hl
    exact hid ▸ he
  · exact h id' e' hl

theorem Sourced.erase (h : Sourced calls m) (id : GoString) : Sourced calls (m.erase id) := by
  intro id' e' hl
  rw [lookup_erase_eq] at hl
  split_ifs at hl
  exact h id' e' hl

/-- A reload changes the spelling of a binding and nothing else. -/
theorem Sourced.reload (h : Sourced calls m) (hm : loaded (f.withMetadata m) = .ok m') :
    Sourced calls m' := by
  intro id e hl he
  rcases loaded_withMetadata hm id with ⟨-, hnone⟩ | ⟨raw, b, hraw, hl'⟩
  · rw [hnone] at hl
    cases hl
  · cases hl.symm.trans hl'
    exact h id raw hraw he

theorem Edits.sourced (h : Edits m c id e) (hm : Sourced calls m)
    (he : e.state = some .verifiedClean) : Verified calls id e := by
  cases h with
  | recorded hb hl => cases he
  | corrupted hb hl hstate => cases he
  | invalidated hb hl hrejected => cases he
  | @moved now raw b e next hb hl hallowed =>
    -- only a verified entry may be moved to the verified state
    cases he
    have hstate : e.state = some .verifiedClean := by
      revert hallowed
      cases e.state with
      | none => nofun
      | some s => cases s <;> decide
    exact hm _ e hl hstate
  | reconciled hb hl hlocal hbody hnext =>
    cases he
    cases hnext

theorem Puts.sourced {data : List UInt8} (h : Puts m c id e data)
    (he : e.state = some .verifiedClean) : Verified (calls ++ [c]) id e := by
  cases h with
  | verified hb hevidence hsum hm =>
    exact ⟨_, _, _, _, _, List.mem_concat_self, hb, rfl, hsum, rfl, rfl⟩
  | staged hb hstate hsum hm =>
    cases he
    rcases hstate with hstate | hstate <;> cases hstate

/-- One call, wherever it ends, keeps what a reload finds. -/
theorem Changed.sourced (h : Changed c f f') (hf : ∀ m, loaded f = .ok m → Sourced calls m)
    (hm' : loaded f' = .ok m') : Sourced (calls ++ [c]) m' := by
  rcases h with rfl | ⟨m, g, hm, hg, hchange⟩
  · exact (hf m' hm').later c
  have hsame (hmeta : f'.metadata = g.metadata) : Sourced (calls ++ [c]) m' := by
    refine (hf m' ?_).later c
    rw [← hm', loaded, loaded, hmeta, hg.metadata]
  have hs := (hf m hm).later c
  cases hchange with
  | quiet => exact hsame rfl
  | rewritten => exact hs.reload hm'
  | edited h => exact (hs.insert (h.sourced hs)).reload hm'
  | staged h => exact hsame rfl
  | put h => exact (hs.insert h.sourced).reload hm'
  | dropped h hnone => exact hsame rfl
  | orphaned h hnone => exact (hs.insert h.sourced).reload hm'
  | unlinked hb => exact hsame rfl
  | removed hb => exact (hs.erase _).reload hm'

theorem Acts.changed (h : Acts d d' c) : Changed c d.files d'.files := by
  cases h with
  | recordRemote h => exact leaves_recordRemote.runs h
  | putVerified h => exact (leaves_putVerified _ _ _ _).runs h
  | putLocal h => exact leaves_putLocal.runs h
  | readSection hb h => exact (leaves_readLocked hb).runs h
  | invalidate hb h => exact (leaves_invalidate hb).runs h
  | readLocalBounded h => exact leaves_readLocalBounded.runs h
  | verifyLocal h => exact leaves_verifyLocal.runs h
  | readLocalRange h => exact (leaves_readLocalRange _ _ _ _ _ d).runs h
  | inspect h => exact leaves_inspect.runs h
  | list h => exact leaves_list.runs h
  | transition h => exact leaves_transition.runs h
  | reconcileLocalState h => exact leaves_reconcileLocalState.runs h
  | remove h => exact leaves_remove.runs h

theorem Reached.sourced (h : Reached calls d) : ∀ m, loaded d.files = .ok m → Sourced calls m := by
  induction h with
  | fresh h =>
    intro m hm
    rw [loaded, Disk.files, h] at hm
    cases hm
    intro id e hl
    cases hl
  | call h hc ih => exact fun m hm => hc.changed.sourced ih hm

/-- Bytes are returned as verified only if they have the requested identifier and
the verifier accepts, in this call, evidence that a call of the run has stored
for the binding. -/
theorem readVerified_sourced (now : Stamp) (raw : Binding)
    (verifier : Binding → VerificationEvidence → Bool) {body : List UInt8} (h : Reached calls d)
    (hr : Runs (readVerified now raw verifier) d (.done (body, e)) d') :
    ∃ b evidence, normalizeBinding raw = .ok b ∧ sumsBody b.cid body = true ∧ e.verification =
      some evidence ∧ verifier b evidence = true ∧ Verified calls (bindingID b) e := by
  obtain ⟨b, m, evidence, hb, hm, hl, hstate, hevidence, -, hsum, haccepted⟩ :=
    (leaves_readVerified now raw verifier).done hr
  exact ⟨b, evidence, hb, hsum, hevidence, haccepted, h.sourced m hm _ e hl hstate⟩

end runs

section

attribute [local instance] CidFormat.verbatim PayloadHash.verbatim

def sampleBinding : Binding :=
  let cid := some (rawCid [7])
  ⟨text "d", text "b", cid, 1, cid, 0⟩

def samplePut : Action :=
  @Action.putVerified CidFormat.verbatim ⟨77, by decide⟩ sampleBinding [7] ⟨text "p", [1], 1⟩

def sampleEntry : Entry :=
  @Entry.mk CidFormat.verbatim sampleBinding (some .verifiedClean)
    (some ⟨text "p", [1], 1⟩) true 1 77

theorem readVerified_sourced_put :
    letI : BindingHash := ⟨fun _ => text "id"⟩
    ∃ d, Reached [samplePut] d ∧ Verified [samplePut] (text "id") sampleEntry := by
  let ids : BindingHash := ⟨fun _ => text "id"⟩
  have hrun :
    ∃ r ∈ (putVerified ⟨77, by decide⟩ sampleBinding [7] ⟨text "p", [1], 1⟩).outcomes
      ⟨none, ∅, 0, 0⟩,
      ∃ r' ∈ (readVerified ⟨77, by decide⟩ sampleBinding fun _ _ => true).outcomes r.2,
        r'.1 = .done ([7], sampleEntry) := by
    decide
  obtain ⟨⟨o, d⟩, hput, ⟨_, d'⟩, hread, rfl⟩ := hrun
  have hreached := (Reached.fresh rfl).call (.putVerified hput)
  obtain ⟨b, -, -, -, -, -, hverified⟩ := readVerified_sourced _ _ _ hreached hread
  exact ⟨d, hreached, hverified⟩

end

end MaltClient.PayloadCache
