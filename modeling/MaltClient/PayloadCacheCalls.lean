import MaltClient.PayloadCache

/-! What one call can do to the files of the cache, wherever it fails or stops. -/

namespace MaltClient.PayloadCache

open GoText Checked AssocMap FaultyIO FaultyIO.Prog
open Cache (CacheError)

variable [CidFormat]

section files

structure Files where
  metadata : Option Content
  body : GoString → Option (List UInt8)

def Disk.files (d : Disk) : Files := ⟨d.metadata, fun id => d.blobs.lookup id⟩

def Files.withMetadata (f : Files) (m : Metadata) : Files :=
  { f with metadata := some (.document metadataVersion (some m)) }

def Files.withBody (f : Files) (id : GoString) (data : Option (List UInt8)) : Files :=
  { f with body := Function.update f.body id data }

theorem withBody_withBody (f : Files) (id : GoString) (a b : Option (List UInt8)) :
    (f.withBody id a).withBody id b = f.withBody id b := by
  simp [Files.withBody]

def Target.apply : Target → Files → Files
  | .metadata content, f => { f with metadata := some content }
  | .body id data, f => f.withBody id (some data)

@[simp] theorem files_create (t : Target) (d : Disk) : (t.create d).files = d.files := by
  cases t <;> rfl

@[simp] theorem files_discard (t : Target) (d : Disk) : (t.discard d).files = d.files := by
  cases t <;> rfl

@[simp] theorem files_rename (t : Target) (d : Disk) : (t.rename d).files = t.apply d.files := by
  cases t with
  | metadata content => rfl
  | body id data =>
    simp only [Target.rename, Target.apply, Disk.files, Files.withBody, Files.mk.injEq, true_and]
    funext id'
    rw [lookup_insert_eq, Function.update_apply]

@[simp] theorem files_removeBlob (id : GoString) (d : Disk) :
    (removeBlob id d).files = d.files.withBody id none := by
  simp only [removeBlob, Disk.files, Files.withBody, Files.mk.injEq, true_and]
  funext id'
  rw [lookup_erase_eq, Function.update_apply]

end files

section programs

/-- Whatever happens, the files that are left have `I`; a result has `Q`. -/
def Leaves {α : Type} (m : Call α) (I : Files → Prop) (Q : α → Files → Prop) (d : Disk) : Prop :=
  wp m (fun a d' => I d'.files ∧ Q a d'.files) (fun _ d' => I d'.files) (fun d' => I d'.files) d

variable {α β : Type} {m : Call α} {I : Files → Prop} {Q : α → Files → Prop} {d d' : Disk}

theorem Leaves.runs (h : Leaves m I Q d) {o : Outcome CacheError α} (hr : Runs m d o d') :
    I d'.files := by
  have hpost := h o d' hr
  cases o with
  | done a => exact hpost.1
  | failed e => exact hpost
  | crashed => exact hpost

theorem Leaves.done (h : Leaves m I Q d) {a : α} (hr : Runs m d (.done a) d') : Q a d'.files :=
  (h (.done a) d' hr).2

variable {J : Files → Prop} {e : CacheError}

theorem Leaves.mono {R : α → Files → Prop} (h : Leaves m I Q d) (hI : ∀ f, I f → J f)
    (hQ : ∀ a f, I f → Q a f → R a f) : Leaves m J R d :=
  wp.mono h (fun a _ ht => ⟨hI _ ht.1, hQ a _ ht.1 ht.2⟩) (fun _ _ ht => hI _ ht)
    (fun _ ht => hI _ ht)

@[simp] theorem leaves_pure {a : α} : Leaves (pure a) I Q d ↔ I d.files ∧ Q a d.files := wp_pure

@[simp] theorem leaves_fail : Leaves (fail e : Call α) I Q d ↔ I d.files := wp_fail

theorem leaves_bind {next : α → Call β} {Q : β → Files → Prop} {P : α → Files → Prop}
    (h : Leaves m I P d)
    (hnext : ∀ a u, I u.files → P a u.files → Leaves (next a) I Q u) : Leaves (m >>= next) I Q d :=
  wp_bind.mpr (wp.mono h (fun a t ht => hnext a t ht.1 ht.2) (fun _ _ ht => ht) (fun _ ht => ht))

theorem leaves_checked {x : Except CacheError α} (hI : I d.files)
    (h : ∀ a, x = .ok a → Q a d.files) : Leaves (checked x) I Q d :=
  wp_checked.mpr ⟨fun a ha => ⟨hI, h a ha⟩, fun _ _ => hI⟩

theorem leaves_query_bind {f : Disk → α} {next : α → Call β} {Q : β → Files → Prop} (hI : I d.files)
    (h : Leaves (next (f d)) I Q d) : Leaves (query e f >>= next) I Q d :=
  wp_bind.mpr (wp_query.mpr ⟨h, hI, hI⟩)

theorem leaves_call {f : Disk → Disk} {Q : Unit → Files → Prop} (hI : I d.files)
    (hI' : I (f d).files) (h : Q () (f d).files) : Leaves (call e f) I Q d :=
  wp_call.mpr ⟨⟨hI', h⟩, hI, hI⟩

theorem leaves_each {l : List β} {f : β → Call Unit} (hI : I d.files)
    (h : ∀ b ∈ l, ∀ u : Disk, I u.files → Leaves (f b) I (fun _ _ => True) u) :
    Leaves (each l f) I (fun _ _ => True) d := by
  have hloop :
    wp (each l f) (fun _ u => I u.files) (fun _ u => I u.files) (fun u => I u.files) d := by
    refine wp_each hI fun b hb u hu => ?_
    exact wp.mono (h b hb u hu) (fun _ _ ht => ht.1) (fun _ _ ht => ht) (fun _ ht => ht)
  exact hloop.mono (fun _ _ ht => ⟨ht, trivial⟩) (fun _ _ ht => ht) (fun _ ht => ht)

theorem leaves_recover {P : α → Files → Prop} {handle : CacheError → Call α} (h : Leaves m J P d)
    (hI : ∀ f, J f → I f) (hQ : ∀ a f, J f → P a f → Q a f)
    (hhandle : ∀ e u, J u.files → Leaves (handle e) I Q u) : Leaves (m.recover handle) I Q d :=
  wp_recover.mpr (wp.mono h (fun a _ ht => ⟨hI _ ht.1, hQ a _ ht.1 ht.2⟩) (fun e t ht =>
    hhandle e t ht)
    (fun _ ht => hI _ ht))

theorem leaves_ignoring {m : Call Unit} (h : Leaves m I (fun _ _ => True) d) :
    Leaves m.ignoring I (fun _ _ => True) d :=
  leaves_recover h (fun _ hf => hf) (fun _ _ _ _ => trivial) fun _ _ hu =>
    leaves_pure.mpr ⟨hu, trivial⟩

theorem leaves_attempt_bind {next : Unit → Call β} {Q : β → Files → Prop}
    (hI : I d.files) (h : Leaves (next ()) I Q d) : Leaves (attempt e >>= next) I Q d :=
  wp_bind.mpr (wp_call.mpr ⟨h, hI, hI⟩)

theorem leaves_checked_bind {x : Except CacheError α} {next : α → Call β} {Q : β → Files → Prop}
    (hI : I d.files)
    (h : ∀ a, x = .ok a → Leaves (next a) I Q d) : Leaves (checked x >>= next) I Q d :=
  wp_bind.mpr (wp_checked.mpr ⟨h, fun _ _ => hI⟩)

theorem leaves_writeAtomic {t : Target} (hI : I d.files) (hI' : I (t.apply d.files)) :
    Leaves (writeAtomic t) I (fun _ f => f = t.apply d.files) d := by
  unfold Leaves writeAtomic step attempt
  simp [hI, hI']

theorem leaves_writeMetadataLocked {m : Metadata} (hI : I d.files)
    (hI' : I (d.files.withMetadata m)) :
    Leaves (writeMetadataLocked m) I (fun _ f => f = d.files.withMetadata m) d :=
  leaves_attempt_bind hI (leaves_writeAtomic hI hI')

end programs

section reload

structure Collected (m : Metadata) (f g : Files) : Prop where
  metadata : g.metadata = f.metadata
  body : ∀ id, g.body id = f.body id ∨ (referenced m id = false ∧ g.body id = none)

theorem Collected.refl (m : Metadata) (f : Files) : Collected m f f := ⟨rfl, fun _ => .inl rfl⟩

variable {id : GoString} {f g : Files} {m : Metadata} {d : Disk}

theorem Collected.body_eq (h : Collected m f g) {data : List UInt8}
    (hdata : g.body id = some data) : f.body id = some data := by
  rcases h.body id with hsame | ⟨-, hgone⟩
  · rw [← hsame, hdata]
  · rw [hdata] at hgone
    cases hgone

theorem Collected.removed (h : Collected m f g) (hid : referenced m id = false) :
    Collected m f (g.withBody id none) := by
  refine ⟨h.metadata, fun id' => ?_⟩
  by_cases he : id' = id
  · subst he
    exact .inr ⟨hid, Function.update_self _ _ _⟩
  · have hsame : (g.withBody id none).body id' = g.body id' := Function.update_of_ne he _ _
    rw [hsame]
    exact h.body id'

theorem leaves_reconcileLocked :
    Leaves (reconcileLocked m) (Collected m d.files) (fun _ _ => True) d := by
  have hd := Collected.refl m d.files
  have htemps : ∀ n (change : Disk → Disk), (∀ u, (change u).files = u.files) → ∀ u :
    Disk, Collected m d.files u.files →
      Leaves (each (List.replicate n ()) fun _ => call .io change) (Collected m d.files)
        (fun _ _ => True) u := by
    intro n change hchange u hu
    refine leaves_each hu fun _ _ v hv => leaves_call hv ?_ trivial
    rw [hchange]
    exact hv
  have hbodies : ∀ ids (u : Disk), Collected m d.files u.files →
      Leaves (each ids fun id => if referenced m id = true then pure ()
        else call .io (removeBlob id))
        (Collected m d.files) (fun _ _ => True) u := by
    intro ids u hu
    refine leaves_each hu fun id _ v hv => ?_
    by_cases hid : referenced m id = true
    · rw [if_pos hid]
      exact leaves_pure.mpr ⟨hv, trivial⟩
    · rw [if_neg hid]
      refine leaves_call hv ?_ trivial
      rw [files_removeBlob]
      exact hv.removed (by simpa using hid)
  unfold reconcileLocked
  refine leaves_query_bind hd (leaves_bind (htemps _ removeBodyTemp (fun _ => rfl) d hd)
    fun _ u hu _ => ?_)
  refine leaves_bind (hbodies _ u hu) fun _ v hv _ => leaves_query_bind hv ?_
  exact htemps _ removeMetadataTemp (fun _ => rfl) v hv

variable [BindingHash]

def loaded (f : Files) : Except CacheError Metadata :=
  match f.metadata with
  | none => .ok ∅
  | some content => decodeMetadata content

/-- Metadata that was written is read back with nothing but the spelling of its
bindings changed. -/
theorem loaded_withMetadata {m' : Metadata} (hm : loaded (f.withMetadata m) = .ok m')
    (id : GoString) : m.lookup id = none ∧ m'.lookup id = none ∨
      ∃ e b, m.lookup id = some e ∧ m'.lookup id = some { e with binding := b } := by
  simp only [loaded, Files.withMetadata, decodeMetadata, ok_iff, Option.some.injEq] at hm
  obtain ⟨-, -, _, rfl, hfold⟩ := hm
  obtain ⟨hnone, hsome⟩ := foldlM_replace_eq_ok hfold id
  cases hraw : m.lookup id with
  | none => exact .inl ⟨rfl, hnone hraw⟩
  | some raw =>
    obtain ⟨v, hv, hl⟩ := hsome raw hraw
    simp only [loadEntry, normalizeEntry, ok_iff] at hv
    obtain ⟨_, ⟨b, -, -, -, -, -, -, -, rfl⟩, -, -, rfl⟩ := hv
    exact .inr ⟨raw, b, rfl, hl⟩

/-- Every entry that is read has a state, and its binding has its name. -/
theorem entry_of_loaded {e : Entry} (hm : loaded f = .ok m) (hl : m.lookup id = some e) :
    e.state ≠ none ∧ bindingID e.binding = id := by
  unfold loaded at hm
  cases hf : f.metadata with
  | none =>
    rw [hf] at hm
    cases hm
    cases hl
  | some content =>
    rw [hf] at hm
    cases content with
    | malformed => cases hm
    | document version entries =>
      simp only [decodeMetadata, ok_iff] at hm
      obtain ⟨-, -, next, -, hfold⟩ := hm
      obtain ⟨hnone, hsome⟩ := foldlM_replace_eq_ok hfold id
      cases hraw : next.lookup id with
      | none =>
        rw [hnone hraw] at hl
        cases hl
      | some raw =>
        obtain ⟨v, hv, hl'⟩ := hsome raw hraw
        cases hl.symm.trans hl'
        simp only [loadEntry, normalizeEntry, ok_iff, not_or, not_not] at hv
        obtain ⟨_, ⟨b, -, -, hstate, -, -, -, -, rfl⟩, -, hid, rfl⟩ := hv
        exact ⟨hstate.1, hid⟩

/-- Nothing has changed, or the metadata was read and some bodies were collected. -/
def Reloaded (f g : Files) : Prop := g = f ∨ ∃ m, loaded f = .ok m ∧ Collected m f g

theorem leaves_reloadLocked :
    Leaves reloadLocked (Reloaded d.files) (fun m g => loaded d.files = .ok m ∧
      Collected m d.files g) d := by
  have hsame : Reloaded d.files d.files := .inl rfl
  have hcollect : ∀ m, loaded d.files = .ok m →
      Leaves (reconcileLocked m >>= fun _ => pure m) (Reloaded d.files)
        (fun m g => loaded d.files = .ok m ∧ Collected m d.files g) d := by
    intro m hm
    have hreconcile :
      Leaves (reconcileLocked m) (Reloaded d.files) (fun _ => Collected m d.files) d :=
      leaves_reconcileLocked.mono (fun f hf => .inr ⟨m, hm, hf⟩) (fun _ f hf _ => hf)
    refine leaves_bind hreconcile fun _ u hu hcollected => ?_
    exact leaves_pure.mpr ⟨hu, hm, hcollected⟩
  unfold reloadLocked
  refine leaves_query_bind hsame ?_
  cases hfile : d.metadata with
  | none => exact hcollect ∅ (by simp [loaded, Disk.files, hfile])
  | some content =>
    refine leaves_attempt_bind hsame (leaves_checked_bind hsame fun m hm => ?_)
    exact hcollect m (by simpa [loaded, Disk.files, hfile] using hm)

def Saved {α : Type} (write : Bool) (I : Files → Prop) (Q : α → Files → Prop) (r : Metadata × α)
    (f : Files) : Prop :=
  if write = true then I (f.withMetadata r.1) ∧ Q r.2 (f.withMetadata r.1) else Q r.2 f

theorem leaves_withState {α : Type} {write : Bool} {operation : Metadata → Call (Metadata × α)}
    {I : Files → Prop} {Q : α → Files → Prop} (hreload : ∀ g, Reloaded d.files g → I g)
    (h : ∀ m u, loaded d.files = .ok m → Collected m d.files u.files →
      Leaves (operation m) I (Saved write I Q) u) :
    Leaves (withState write operation) I Q d := by
  have hd : I d.files := hreload _ (.inl rfl)
  unfold withState
  refine leaves_attempt_bind hd (leaves_attempt_bind hd ?_)
  have hbody : Leaves (underLock write operation) I Q d := by
    refine leaves_bind (leaves_reloadLocked.mono hreload fun _ _ _ hm => hm) fun m u hu hm => ?_
    refine leaves_bind (h m u hm.1 hm.2) fun r v hv hsaved => ?_
    by_cases hwrite : write = true
    · rw [Saved, if_pos hwrite] at hsaved
      simp only [if_pos hwrite]
      refine leaves_bind (leaves_writeMetadataLocked hv hsaved.1) fun _ w hw hfiles => ?_
      rw [leaves_pure, hfiles]
      exact hsaved
    · rw [Saved, if_neg hwrite] at hsaved
      simp only [if_neg hwrite]
      exact leaves_pure.mpr ⟨hv, hsaved⟩
  -- unlocking changes nothing, whether it succeeds or not
  refine wp_deferring.mpr (wp.mono hbody ?_ ?_ fun _ ht => ht)
  · intro a t ht
    exact wp_call.mpr ⟨ht, ht, ht.1⟩
  · intro e t ht
    exact wp_call.mpr ⟨ht, ht, ht⟩

end reload

end MaltClient.PayloadCache
