import MaltClient.DeviceAuth
import MaltClient.KeyringRuns

/-! Whatever processes do, and wherever they are stopped, no counter of a
credential is used for two proofs, as long as a directory sync keeps a rename. -/

namespace MaltClient.DeviceAuth

open GoText Checked ReplacedFile Base64

section records

def Holds (file : Option File) (id : GoString) (counter : UInt64) : Prop :=
  ∃ c, file = some (some c) ∧ c.val.credentialID = id ∧ c.val.counter = counter

variable {id : GoString} {c : Credential} {proofs : List Proof} {files files' : List (Option File)}

theorem holds_encode {counter : UInt64} :
    Holds (some c.encode) id counter ↔ jsonText c.credentialID = id ∧ c.counter = counter := by
  constructor
  · rintro ⟨d, hd, rfl, rfl⟩
    cases hd
    exact ⟨rfl, rfl⟩
  · rintro ⟨rfl, rfl⟩
    exact ⟨_, rfl, rfl, rfl⟩

def Above (proofs : List Proof) (id : GoString) (counter : UInt64) : Prop :=
  ∀ p ∈ proofs, p.credentialID = id → p.counter < counter

def Increasing (proofs : List Proof) : Prop :=
  proofs.Pairwise fun p q => p.credentialID = q.credentialID → p.counter < q.counter

theorem Increasing.snoc {p : Proof} (h : Increasing proofs)
    (habove : Above proofs p.credentialID p.counter) : Increasing (proofs ++ [p]) := by
  refine List.pairwise_append.mpr ⟨h, List.pairwise_singleton _ _, fun q hq p' hp' he => ?_⟩
  obtain rfl := List.mem_singleton.mp hp'
  exact habove q hq he

def Covers (files : List (Option File)) (proofs : List Proof) : Prop :=
  ∀ p ∈ proofs, ∀ f ∈ files, ∀ counter, Holds f p.credentialID counter → p.counter ≤ counter

theorem Covers.subset (h : Covers files proofs)
    (hsub : files' ⊆ files) : Covers files' proofs := fun p hp f hf => h p hp f (hsub hf)

theorem Covers.cons (h : Covers files proofs)
    (habove : Above proofs (jsonText c.credentialID) c.counter) :
    Covers (some c.encode :: files) proofs := by
  intro p hp f hf counter hholds
  rcases List.mem_cons.mp hf with rfl | hf
  · obtain ⟨hid, rfl⟩ := holds_encode.mp hholds
    exact UInt64.le_of_lt (habove p hp hid.symm)
  · exact h p hp f hf counter hholds

structure Unused (files : List (Option File)) (proofs : List Proof) (id : GoString) : Prop where
  file : ∀ f ∈ files, ∀ counter, ¬ Holds f id counter
  proof : ∀ p ∈ proofs, p.credentialID ≠ id

theorem Unused.subset (h : Unused files proofs id) (hsub : files' ⊆ files) :
    Unused files' proofs id :=
  ⟨fun f hf => h.file f (hsub hf), h.proof⟩

theorem Unused.cons
    (h : Unused files proofs id) (hne : jsonText c.credentialID ≠ id) :
    Unused (some c.encode :: files) proofs id := by
  refine ⟨fun f hf counter hholds => ?_, h.proof⟩
  rcases List.mem_cons.mp hf with rfl | hf
  · exact hne (holds_encode.mp hholds).1
  · exact h.file f hf counter hholds

theorem Unused.above (h : Unused files proofs id)
    (counter : UInt64) : Above proofs id counter := fun p hp he => absurd he (h.proof p hp)

end records

section reservation

variable {value : Credential} {file : Option File} {request : Request}

theorem load_eq_ok (h : load file = .ok value) :
    ∃ c : { c : Credential // c.json = c }, file = some (some c) ∧ c.val = value := by
  cases file with
  | none => simp [load] at h
  | some file =>
    simp only [load, ok_iff] at h
    obtain ⟨c, rfl, -, -, hval⟩ := h
    exact ⟨c, rfl, hval⟩

theorem toNat_succ {n : UInt64} (h : n ≠ -1) : (n + 1).toNat = n.toNat + 1 := by
  have hlt : n.toNat < 2 ^ 64 := n.toNat_lt
  have hne : n.toNat ≠ 2 ^ 64 - 1 := by
    intro he
    exact h (UInt64.toNat.inj he)
  rw [UInt64.toNat_add]
  have hone : (1 : UInt64).toNat = 1 := rfl
  omega

theorem checkSaved_eq_ok {value' : Credential} (h : checkSaved value = .ok value') :
    value'.credentialID = value.credentialID ∧ value'.counter = value.counter ∧
      (value.json = value → value'.json = value') := by
  simp only [checkSaved, ok_iff] at h
  obtain ⟨-, -, rfl⟩ := h
  split_ifs with hv
  · refine ⟨rfl, rfl, fun hjson => ?_⟩
    conv_rhs => rw [← hjson]
    rfl
  · exact ⟨rfl, rfl, fun hjson => hjson⟩

variable [DeviceLibrary]

theorem reserve_eq_ok (h : reserve request file = .ok value) :
    ∃ loaded, load file = .ok loaded ∧ value = { loaded with counter := loaded.counter + 1 } ∧
      value.counter.toNat = loaded.counter.toNat + 1 := by
  simp only [reserve, ok_iff] at h
  obtain ⟨loaded, hload, -, -, -, hcounter, rfl⟩ := h
  exact ⟨loaded, hload, rfl, toNat_succ hcounter⟩

theorem prove_eq_ok {now : Int} {proof : Proof}
    (h : prove request now value = .ok proof) :
    proof.credentialID = value.credentialID ∧ proof.counter = value.counter := by
  simp only [prove, ok_iff] at h
  obtain ⟨-, -, -, -, -, -, rfl⟩ := h
  exact ⟨rfl, rfl⟩

end reservation

section places

def Place.locked : Place → Bool
  | .idle | .waiting _ => false
  | _ => true

def Place.issues : Place → Option GoString
  | .waiting (.save value) => some (jsonText value.credentialID)
  | .staging value none _ _ => some (jsonText value.credentialID)
  | .replacing value none => some (jsonText value.credentialID)
  | _ => none

structure Taken (visible : Option File) (proofs : List Proof) (value : Credential) : Prop where
  normal : jsonText value.credentialID = value.credentialID
  above : Above proofs value.credentialID value.counter
  held : ∃ counter, Holds visible value.credentialID counter

def Fits (files : List (Option File)) (visible : Option File) (proofs : List Proof) : Place → Prop
  | .staging value (some _) _ _ => Taken visible proofs value
  | .replacing value (some _) => Taken visible proofs value
  | .securing value next =>
    visible = some value.encode ∧ (next.isSome = true → Taken visible proofs value)
  | .syncing value next =>
    visible = some value.encode ∧ (next.isSome = true → Taken visible proofs value)
  | .proving value _ _ => files ⊆ [some value.encode] ∧ Taken visible proofs value
  | .unlocking (.ok (some proof)) =>
    (∀ f ∈ files, ∀ counter, Holds f proof.credentialID counter → proof.counter ≤ counter) ∧
      Above proofs proof.credentialID proof.counter ∧
        ∃ counter, Holds visible proof.credentialID counter
  | _ => True

variable {proofs : List Proof} {visible : Option File} {files : List (Option File)}

theorem fits_of_unlocked {place : Place} (h : place.locked = false) :
    Fits files visible proofs place := by
  cases place <;> trivial

theorem fits_failure (next : Next) (e : AuthError) :
    Fits files visible proofs (failure next e) := trivial

end places

section invariant

variable {platform : Platform} {failing : Prop}

/-- What holds in every state. The identities that are still to be issued are
`future`. -/
structure Inv (outlook : Outlook (syncParent platform) failing) (future : List GoString)
    (system : System) : Prop where
  exclusive : ∀ pid, (system.procs pid).locked = true → system.lock = some pid
  increasing : Increasing system.proofs
  covers : Covers (outlook.contents system.disk) system.proofs
  fits : ∀ pid, Fits (outlook.contents system.disk) system.disk.visible system.proofs
    (system.procs pid)
  issued : ∀ pid id, (system.procs pid).issues = some id →
    Unused (outlook.contents system.disk) system.proofs id
  distinct : ∀ pid pid' id, (system.procs pid).issues = some id → (system.procs pid').issues =
    some id → pid = pid'
  nodup : future.Nodup
  fresh : ∀ id ∈ future,
    Unused (outlook.contents system.disk) system.proofs id ∧
      ∀ pid, (system.procs pid).issues ≠ some id

variable {outlook : Outlook (syncParent platform) failing} {future : List GoString}
  {system : System}

variable {pid : Nat} {proofs : List Proof} {lock : Option Nat} {place : Place} {next : Next}
  {value : Credential} {request : Request}

theorem Inv.others_unlocked (h : Inv outlook future system)
    (hpid : (system.procs pid).locked = true)
    {q : Nat} (hq : q ≠ pid) : (system.procs q).locked = false := by
  by_contra hlocked
  rw [Bool.not_eq_false] at hlocked
  have hsame := (h.exclusive q hlocked).symm.trans (h.exclusive pid hpid)
  exact hq (Option.some.inj hsame)

/-- One process moves to another place and may change the file and the proofs;
it keeps the identity it issues, or gives it up. -/
theorem Inv.update (h : Inv outlook future system) {disk : Disk (Option File)}
    (hlock : ∀ q, (Function.update system.procs pid place q).locked = true → lock = some q)
    (hothers : ∀ q, q ≠ pid → (system.procs q).locked = false ∨ disk = system.disk ∧
      proofs = system.proofs)
    (hincreasing : Increasing proofs) (hcovers : Covers (outlook.contents disk) proofs)
    (hfits : Fits (outlook.contents disk) disk.visible proofs place)
    (hissues : ∀ id, place.issues = some id →
      (system.procs pid).issues = some id ∧ Unused (outlook.contents disk) proofs id)
    (hunused : ∀ id, Unused (outlook.contents system.disk) system.proofs id →
      (system.procs pid).issues ≠ some id → Unused (outlook.contents disk) proofs id) :
    Inv outlook future
      { disk := disk, lock := lock, procs := Function.update system.procs pid place,
        proofs := proofs } := by
  have hsame : (Function.update system.procs pid place) pid = place :=
    Function.update_self pid place system.procs
  have hother (q : Nat) (hq : q ≠ pid) :
    (Function.update system.procs pid place) q = system.procs q :=
    Function.update_of_ne hq place system.procs
  have hkeep (q : Nat) (id : GoString)
    (hq : ((Function.update system.procs pid place) q).issues = some id) :
      (system.procs q).issues = some id := by
    by_cases hpid : q = pid
    · subst hpid
      rw [hsame] at hq
      exact (hissues id hq).1
    · rwa [hother q hpid] at hq
  refine ⟨hlock, hincreasing, hcovers, fun q => ?_, fun q id hq => ?_, fun q q' id hq hq' => ?_,
    h.nodup, fun id hid => ?_⟩
  · by_cases hpid : q = pid
    · subst hpid
      simp only [hsame]
      exact hfits
    · simp only [hother q hpid]
      rcases hothers q hpid with hunlocked | ⟨rfl, rfl⟩
      · exact fits_of_unlocked hunlocked
      · exact h.fits q
  · by_cases hpid : q = pid
    · subst hpid
      simp only [hsame] at hq
      exact (hissues id hq).2
    · have hissue := hkeep q id hq
      exact hunused id (h.issued q id hissue) fun hown => hpid (h.distinct q pid id hissue hown)
  · exact h.distinct q q' id (hkeep q id hq) (hkeep q' id hq')
  · obtain ⟨hfresh, hnone⟩ := h.fresh id hid
    exact ⟨hunused id hfresh (hnone pid), fun q hq => hnone q (hkeep q id hq)⟩

theorem Inv.move (h : Inv outlook future system)
    (hlock : ∀ q, (Function.update system.procs pid place q).locked = true → lock = some q)
    (hfits : Fits (outlook.contents system.disk) system.disk.visible system.proofs place)
    (hissues : ∀ id, place.issues = some id → (system.procs pid).issues = some id) :
    Inv outlook future { system.place pid place with lock := lock } :=
  h.update hlock (fun _ _ => .inr ⟨rfl, rfl⟩) h.increasing h.covers hfits
    (fun id hid => ⟨hissues id hid, h.issued pid id (hissues id hid)⟩) fun _ hunused _ => hunused

theorem Inv.locked_update (h : Inv outlook future system) (hlock : system.lock = some pid)
    (place : Place) :
    ∀ q, (Function.update system.procs pid place q).locked = true → system.lock = some q := by
  intro q hq
  by_cases hpid : q = pid
  · rw [hpid]
    exact hlock
  · rw [Function.update_of_ne hpid] at hq
    exact h.exclusive q hq

theorem Inv.move_unlocked (h : Inv outlook future system) (hplace : place.locked = false)
    (hissues : ∀ id, place.issues = some id → (system.procs pid).issues = some id) :
    Inv outlook future (system.place pid place) := by
  refine h.move (fun q hq => ?_) (fits_of_unlocked hplace) hissues
  by_cases hpid : q = pid
  · subst hpid
    rw [Function.update_self, hplace] at hq
    cases hq
  · rw [Function.update_of_ne hpid] at hq
    exact h.exclusive q hq

theorem issues_saving {id : GoString} (h : (saving value next).issues = some id) :
    next = none ∧ id = jsonText value.credentialID := by
  unfold saving at h
  cases hcheck : checkSaved value with
  | error e =>
    rw [hcheck] at h
    cases h
  | ok value' =>
    rw [hcheck] at h
    cases next with
    | some next => cases h
    | none =>
      exact ⟨rfl, (Option.some.inj h).symm.trans (congrArg jsonText (checkSaved_eq_ok hcheck).1)⟩

theorem fits_saving {files : List (Option File)} {visible : Option File}
    (h : next.isSome = true → Taken visible proofs value) :
    Fits files visible proofs (saving value next) := by
  unfold saving
  cases hcheck : checkSaved value with
  | error e => trivial
  | ok value' =>
    cases next with
    | none => trivial
    | some next =>
      obtain ⟨hid, hcounter, -⟩ := checkSaved_eq_ok hcheck
      obtain ⟨hnormal, habove, hheld⟩ := h rfl
      show Taken visible proofs value'
      constructor
      · rw [hid]
        exact hnormal
      · rw [hid, hcounter]
        exact habove
      · rw [hid]
        exact hheld

theorem inv_acquire (h : Inv outlook future system) {call : Call}
    (hplace : system.procs pid = .waiting call) (hfree : system.lock = none) :
    Inv outlook future { system.place pid (enter call) with lock := some pid } := by
  refine h.move (fun q hq => ?_) ?_ fun id hid => ?_
  · by_cases hpid : q = pid
    · rw [hpid]
    · rw [Function.update_of_ne hpid] at hq
      have hheld := h.exclusive q hq
      rw [hfree] at hheld
      cases hheld
  · cases call with
    | authorize request now => trivial
    | save value => exact fits_saving fun hnext => by cases hnext
  · rw [hplace]
    cases call with
    | authorize request now => cases hid
    | save value => exact congrArg some (issues_saving hid).2.symm

theorem inv_rename (h : Inv outlook future system)
    (hplace : system.procs pid = .replacing value next) : Inv outlook future
      { system.place pid (.securing value next) with
        disk := system.disk.rename (some value.encode) } := by
  have hlocked : (system.procs pid).locked = true := by rw [hplace]; rfl
  have hsub := outlook.rename_subset system.disk (some value.encode)
  have htaken : next.isSome = true → Taken system.disk.visible system.proofs value := by
    intro hnext
    obtain ⟨n, rfl⟩ := Option.isSome_iff_exists.mp hnext
    have hfits := h.fits pid
    rw [hplace] at hfits
    exact hfits
  have hissues (hnext : next = none) :
    (system.procs pid).issues = some (jsonText value.credentialID) := by
    rw [hplace, hnext]
    rfl
  have habove : Above system.proofs (jsonText value.credentialID) value.counter := by
    cases hnext : next with
    | none => exact (h.issued pid _ (hissues hnext)).above _
    | some n =>
      have ht := htaken (by rw [hnext]; rfl)
      rw [ht.normal]
      exact ht.above
  refine h.update (h.locked_update (h.exclusive pid hlocked) _)
    (fun q hq => .inl (h.others_unlocked hlocked hq))
    h.increasing ((h.covers.cons habove).subset hsub) ⟨rfl, fun hnext => ?_⟩
      (fun id hid => by cases hid)
    fun id hid hown => (hid.cons ?_).subset hsub
  · have ht := htaken hnext
    exact ⟨ht.normal, ht.above, _, holds_encode.mpr ⟨ht.normal, rfl⟩⟩
  · rintro rfl
    cases hnext : next with
    | none => exact hown (hissues hnext)
    | some n =>
      have ht := htaken (by rw [hnext]; rfl)
      obtain ⟨counter, hheld⟩ := ht.held
      rw [← ht.normal] at hheld
      exact hid.file _ (outlook.visible_mem _) counter hheld

theorem inv_sync (h : Inv outlook future system) (hplace : system.procs pid = .syncing value next)
    (hnext : (next = none ∧ place = .unlocking (.ok none)) ∨
      ∃ request now, next = some (request, now) ∧ place = .proving value request now) :
    Inv outlook future { system.place pid place with disk := syncParent platform system.disk } := by
  have hlocked : (system.procs pid).locked = true := by rw [hplace]; rfl
  have hvisible := outlook.sync_visible system.disk
  have hsub :
    outlook.contents (syncParent platform system.disk) ⊆ outlook.contents system.disk := by
    intro f hf
    rw [List.mem_singleton.mp (outlook.sync_subset system.disk hf)]
    exact outlook.visible_mem system.disk
  have hfits := h.fits pid
  rw [hplace] at hfits
  obtain ⟨hfile, htaken⟩ := hfits
  refine h.update (h.locked_update (h.exclusive pid hlocked) _)
    (fun q hq => .inl (h.others_unlocked hlocked hq))
    h.increasing (h.covers.subset hsub) ?_ ?_ fun id hid _ => hid.subset hsub
  · rcases hnext with ⟨-, rfl⟩ | ⟨request, now, rfl, rfl⟩
    · trivial
    · refine ⟨?_, ?_⟩
      · rw [← hfile]
        exact outlook.sync_subset system.disk
      · rw [hvisible]
        exact htaken rfl
  · intro id hid
    rcases hnext with ⟨-, rfl⟩ | ⟨request, now, rfl, rfl⟩ <;> cases hid

theorem inv_unlock (h : Inv outlook future system) {result : Except AuthError (Option Proof)}
    (hplace : system.procs pid = .unlocking result) (ok : Bool) :
    Inv outlook future { system.place pid .idle with
      lock := if ok then none else system.lock
      proofs := system.proofs ++ proofOf result } := by
  have hlocked : (system.procs pid).locked = true := by rw [hplace]; rfl
  have hfits := h.fits pid
  rw [hplace] at hfits
  have hlock (q : Nat) (hq : (Function.update system.procs pid .idle q).locked = true) :
      (if ok then none else system.lock) = some q := by
    by_cases hpid : q = pid
    · subst hpid
      rw [Function.update_self] at hq
      cases hq
    · rw [Function.update_of_ne hpid, h.others_unlocked hlocked hpid] at hq
      cases hq
  refine h.update hlock (fun q hq => .inl (h.others_unlocked hlocked hq)) ?_ ?_ trivial
    (fun id hid => by cases hid) ?_
  all_goals rcases result with e | _ | proof
  -- Without a proof nothing changes.
  all_goals try simp only [proofOf, List.append_nil]
  · exact h.increasing
  · exact h.increasing
  · exact h.increasing.snoc hfits.2.1
  · exact h.covers
  · exact h.covers
  · intro p hp f hf counter hholds
    rcases List.mem_append.mp hp with hp | hp
    · exact h.covers p hp f hf counter hholds
    · obtain rfl := List.mem_singleton.mp hp
      exact hfits.1 f hf counter hholds
  · exact fun id hid _ => hid
  · exact fun id hid _ => hid
  · intro id hid _
    refine ⟨hid.file, fun p hp he => ?_⟩
    rcases List.mem_append.mp hp with hp | hp
    · exact hid.proof p hp he
    · obtain rfl := List.mem_singleton.mp hp
      obtain ⟨counter, hheld⟩ := hfits.2.2
      rw [he] at hheld
      exact hid.file _ (outlook.visible_mem _) counter hheld

variable [DeviceLibrary]

theorem taken_reserve (h : Inv outlook future system)
    (hreserve : reserve request system.disk.visible = .ok value) :
    Taken system.disk.visible system.proofs value := by
  obtain ⟨loaded, hload, hvalue, hsucc⟩ := reserve_eq_ok hreserve
  obtain ⟨c, hvisible, rfl⟩ := load_eq_ok hload
  have hid : value.credentialID = c.val.credentialID := by rw [hvalue]
  have hheld : Holds system.disk.visible value.credentialID c.val.counter :=
    ⟨c, hvisible, hid.symm, rfl⟩
  refine ⟨?_, fun p hp he => ?_, _, hheld⟩
  · rw [hid]
    exact congrArg Credential.credentialID c.property
  · rw [← he] at hheld
    have hle := h.covers p hp _ (outlook.visible_mem _) _ hheld
    rw [UInt64.le_iff_toNat_le] at hle
    rw [UInt64.lt_iff_toNat_lt]
    omega

theorem fits_prove (h : Inv outlook future system) {now : Int}
    (hplace : system.procs pid = .proving value request now) :
    Fits (outlook.contents system.disk) system.disk.visible system.proofs
      (.unlocking ((prove request now value).map some)) := by
  have hfits := h.fits pid
  rw [hplace] at hfits
  obtain ⟨hfiles, hnormal, habove, hheld⟩ := hfits
  cases hprove : prove request now value with
  | error e => trivial
  | ok proof =>
    obtain ⟨hid, hcounter⟩ := prove_eq_ok hprove
    refine ⟨fun f hf counter hholds => ?_, ?_, ?_⟩
    · rw [List.mem_singleton.mp (hfiles hf)] at hholds
      rw [hcounter, (holds_encode.mp hholds).2]
      exact UInt64.le_refl _
    · rw [hid, hcounter]
      exact habove
    · rw [hid]
      exact hheld

theorem inv_advance (h : Inv outlook future system) (hplace : system.procs pid = place)
    (hlocked : place.locked = true) (ok : Bool) :
    Inv outlook future { system.place pid (advance platform ok system.disk place).2 with
      disk := (advance platform ok system.disk place).1 } := by
  have hlock : system.lock = some pid := h.exclusive pid (by rw [hplace, hlocked])
  have hfits := h.fits pid
  rw [hplace] at hfits
  -- A place that concerns neither the file nor the proofs.
  have hmove (place' : Place)
      (hfits' : Fits (outlook.contents system.disk) system.disk.visible system.proofs place')
      (hissues : ∀ id, place'.issues = some id → place.issues = some id) :
      Inv outlook future { system.place pid place' with disk := system.disk } :=
    h.move (h.locked_update hlock place') hfits' (by rw [hplace]; exact hissues)
  cases place with
  | idle => cases hlocked
  | waiting call => cases hlocked
  | loading request now =>
    cases ok with
    | false => exact hmove _ trivial fun id hid => by cases hid
    | true =>
      cases hreserve : reserve request system.disk.visible with
      | error e =>
        simp only [advance, if_true, hreserve]
        exact hmove _ trivial fun id hid => by cases hid
      | ok value =>
        simp only [advance, if_true, hreserve]
        exact hmove _ (fits_saving fun _ => taken_reserve h hreserve) fun id hid => by
          cases (issues_saving hid).1
  | staging value next call calls =>
    cases ok with
    | false => exact hmove _ (fits_failure next _) fun id hid => by cases hid
    | true =>
      cases calls with
      | nil => cases next <;> exact hmove _ hfits fun id hid => hid
      | cons call calls => cases next <;> exact hmove _ hfits fun id hid => hid
  | replacing value next =>
    cases ok with
    | false => exact hmove _ (fits_failure next _) fun id hid => by cases hid
    | true => exact inv_rename h hplace
  | securing value next =>
    cases ok with
    | false => exact hmove _ (fits_failure next _) fun id hid => by cases hid
    | true => exact hmove _ hfits fun id hid => by cases hid
  | syncing value next =>
    cases ok with
    | false => exact hmove _ (fits_failure next _) fun id hid => by cases hid
    | true =>
      cases next with
      | none => exact inv_sync h hplace (.inl ⟨rfl, rfl⟩)
      | some next => exact inv_sync h hplace (.inr ⟨next.1, next.2, rfl, rfl⟩)
  | proving value request now =>
    cases ok with
    | false => exact hmove _ trivial fun id hid => by cases hid
    | true => exact hmove _ (fits_prove h hplace) fun id hid => by cases hid
  | unlocking result => exact hmove _ hfits fun id hid => hid

end invariant

section runs

variable {platform : Platform} {failing : Prop}

def Event.issued : Event → List GoString
  | .start _ (.save value) => [jsonText value.credentialID]
  | _ => []

def issued (events : List Event) : List GoString := events.flatMap Event.issued

/-- Logins save freshly issued credentials: their identities are all different,
and none is in a file that may be there at the start. -/
structure Fresh (disk : Disk (Option File)) (events : List Event) : Prop where
  nodup : (issued events).Nodup
  absent : ∀ id ∈ issued events, ∀ f ∈ disk.survivors, ∀ counter, ¬ Holds f id counter

variable {outlook : Outlook (syncParent platform) failing} {future : List GoString}
  {system : System}

theorem Inv.drop {now : List GoString} (h : Inv outlook (now ++ future) system) :
    Inv outlook future system :=
  { h with
    nodup := (List.nodup_append.mp h.nodup).2.1
    fresh := fun id hid => h.fresh id (List.mem_append_right _ hid) }

theorem inv_login {pid : Nat} {value : Credential}
    (h : Inv outlook (jsonText value.credentialID :: future) system)
    (hidle : system.procs pid = .idle) :
    Inv outlook future (system.place pid (.waiting (.save value))) := by
  obtain ⟨hnotin, hnodup⟩ := List.nodup_cons.mp h.nodup
  obtain ⟨hfresh, hnone⟩ := h.fresh _ List.mem_cons_self
  have hissues (q : Nat) (id : GoString)
      (hq : (Function.update system.procs pid (.waiting (.save value)) q).issues = some id) :
      (q = pid ∧ id = jsonText value.credentialID) ∨
        (q ≠ pid ∧ (system.procs q).issues = some id) := by
    by_cases hpid : q = pid
    · subst hpid
      rw [Function.update_self] at hq
      exact .inl ⟨rfl, (Option.some.inj hq).symm⟩
    · rw [Function.update_of_ne hpid] at hq
      exact .inr ⟨hpid, hq⟩
  have hrest : ∀ id ∈ future, id ≠ jsonText value.credentialID := fun id hid he => hnotin (he ▸ hid)
  constructor
  · intro q hq
    by_cases hpid : q = pid
    · subst hpid
      simp only [System.place, Function.update_self] at hq
      cases hq
    · simp only [System.place, Function.update_of_ne hpid] at hq
      exact h.exclusive q hq
  · exact h.increasing
  · exact h.covers
  · intro q
    by_cases hpid : q = pid
    · subst hpid
      simp only [System.place, Function.update_self]
      trivial
    · simp only [System.place, Function.update_of_ne hpid]
      exact h.fits q
  · intro q id hq
    rcases hissues q id hq with ⟨-, rfl⟩ | ⟨-, hq⟩
    · exact hfresh
    · exact h.issued q id hq
  · intro q q' id hq hq'
    rcases hissues q id hq with ⟨rfl, rfl⟩ | ⟨-, hq⟩
    · rcases hissues q' _ hq' with ⟨rfl, -⟩ | ⟨-, hq'⟩
      · rfl
      · exact absurd hq' (hnone q')
    · rcases hissues q' id hq' with ⟨-, rfl⟩ | ⟨-, hq'⟩
      · exact absurd hq (hnone q)
      · exact h.distinct q q' id hq hq'
  · exact hnodup
  · intro id hid
    refine ⟨(h.fresh id (List.mem_cons_of_mem _ hid)).1, fun q hq => ?_⟩
    rcases hissues q id hq with ⟨-, he⟩ | ⟨-, hq⟩
    · exact hrest id hid he
    · exact (h.fresh id (List.mem_cons_of_mem _ hid)).2 q hq

theorem inv_powerFailure (h : Inv outlook future system) (hfailing : failing) (keep : Nat) :
    Inv outlook future
      { system with disk := system.disk.powerFailure keep, lock := none, procs := fun _ =>
        .idle } := by
  have hsub := outlook.powerFailure_subset hfailing system.disk keep
  constructor
  · intro pid hpid
    cases hpid
  · exact h.increasing
  · exact h.covers.subset hsub
  · exact fun pid => trivial
  · intro pid id hid
    cases hid
  · intro pid pid' id hid
    cases hid
  · exact h.nodup
  · exact fun id hid => ⟨(h.fresh id hid).1.subset hsub, fun pid hpid => by cases hpid⟩

variable {events : List Event} {disk : Disk (Option File)}

theorem inv_start (outlook : Outlook (syncParent platform) failing)
    (h : Fresh disk events) : Inv outlook (issued events) (.start disk) := by
  have hunused (id : GoString) (hid : id ∈ issued events) : Unused (outlook.contents disk) [] id :=
    ⟨fun f hf => h.absent id hid f (outlook.subset_survivors disk hf), fun p hp => by cases hp⟩
  constructor
  · intro pid hpid
    cases hpid
  · exact List.Pairwise.nil
  · intro p hp
    cases hp
  · exact fun pid => trivial
  · intro pid id hid
    cases hid
  · intro pid pid' id hid
    cases hid
  · exact h.nodup
  · exact fun id hid => ⟨hunused id hid, fun pid hpid => by cases hpid⟩

variable [DeviceLibrary]

theorem inv_step (h : Inv outlook future system) (pid : Nat) (ok : Bool) :
    Inv outlook future (system.step platform pid ok) := by
  unfold System.step
  cases hplace : system.procs pid with
  | idle => exact h
  | waiting call =>
    by_cases hok : ok = false
    · simp only [hok, if_true]
      exact h.move_unlocked rfl fun id hid => by cases hid
    by_cases hfree : system.lock = none
    · simp only [hok, hfree, if_true]
      exact inv_acquire h hplace hfree
    · simp only [hok, hfree, if_false]
      exact h
  | unlocking result => exact inv_unlock h hplace ok
  | loading request now => exact inv_advance h hplace rfl ok
  | staging value next call calls => exact inv_advance h hplace rfl ok
  | replacing value next => exact inv_advance h hplace rfl ok
  | securing value next => exact inv_advance h hplace rfl ok
  | syncing value next => exact inv_advance h hplace rfl ok
  | proving value request now => exact inv_advance h hplace rfl ok

theorem inv_exec {event : Event} (h : Inv outlook (event.issued ++ future) system)
    (hpower : ∀ keep, event = .powerFailure keep → failing) :
    Inv outlook future (event.exec platform system) := by
  cases event with
  | start pid call =>
    simp only [Event.exec]
    split
    next hidle =>
      cases call with
      | authorize request now => exact h.drop.move_unlocked rfl fun id hid => by cases hid
      | save value => exact inv_login h hidle
    · exact h.drop
  | step pid ok => exact inv_step h pid ok
  | kill pid =>
    refine h.move (fun q hq => ?_) trivial fun id hid => by cases hid
    by_cases hpid : q = pid
    · subst hpid
      rw [Function.update_self] at hq
      cases hq
    · rw [Function.update_of_ne hpid] at hq
      have hheld := h.exclusive q hq
      have hne : system.lock ≠ some pid := by
        rw [hheld]
        exact fun he => hpid (Option.some.inj he)
      rw [if_neg hne, hheld]
  | powerFailure keep => exact inv_powerFailure h (hpower keep rfl) keep

theorem run_append (platform : Platform) (events more : List Event) (system : System) :
    run platform (events ++ more) system = run platform more (run platform events system) :=
  List.foldl_append

theorem run_cons (platform : Platform) (event : Event) (events : List Event) (system : System) :
    run platform (event :: events) system = run platform events (event.exec platform system) := rfl

theorem inv_run (h : Inv outlook (issued events) system)
    (hpower : ∀ keep, .powerFailure keep ∈ events → failing) :
    Inv outlook [] (run platform events system) := by
  induction events generalizing system with
  | nil => exact h
  | cons event events ih =>
    have hfirst : Inv outlook (issued events) (event.exec platform system) :=
      inv_exec h fun keep he => hpower keep (he ▸ List.mem_cons_self)
    exact ih hfirst fun keep hkeep => hpower keep (List.mem_cons_of_mem _ hkeep)

theorem increasing_run (outlook : Outlook (syncParent platform) failing)
    (h : Fresh disk events) (hpower : ∀ keep, .powerFailure keep ∈ events → failing) :
    Increasing (run platform events (.start disk)).proofs :=
  (inv_run (inv_start outlook h) hpower).increasing

end runs

section reuse

/-- A credential as a login makes it, once `counter` proofs were made. -/
def issuedCredential (counter : UInt64) : Credential :=
  { version := 2, gateway := text "https://gateway", name := text "laptop",
    credentialID := text "key"
    tenantID := text "tenant", principalID := text "principal"
    publicKey := encodeToString .rawURL (List.replicate 32 0)
    privateKey := encodeToString .rawURL (List.replicate 64 0)
    keyProvider := text "software-file", counter := counter, createdAt := 1 }

theorem issuedCredential_json (counter : UInt64) :
    (issuedCredential counter).json = issuedCredential counter := by
  have hpublic := jsonText_eq_self (validString_encodeToString .rawURL (List.replicate 32 0))
  have hprivate := jsonText_eq_self (validString_encodeToString .rawURL (List.replicate 64 0))
  unfold Credential.json issuedCredential
  rw [hpublic, hprivate]
  rfl

theorem issuedCredential_validate (counter : UInt64) :
    (issuedCredential counter).validate = .ok () := by
  have hpublic := decodeString_encodeToString .rawURL (List.replicate 32 0)
  have hprivate := decodeString_encodeToString .rawURL (List.replicate 64 0)
  have htexts : ¬ (trimSpace (text "https://gateway") = [] ∨ trimSpace (text "laptop") = [] ∨
    trimSpace (text "key") = [] ∨
      trimSpace (text "tenant") = [] ∨ trimSpace (text "principal") = [] ∨
        trimSpace (text "software-file") = []) := by
    decide
  simp only [not_or] at htexts
  simp only [Credential.validate, issuedCredential, ok_iff, hpublic, hprivate]
  refine ⟨(), by simp [htexts, credentialVersion], _, rfl, (), by simp [publicKeySize], _, rfl, ?_⟩
  simp [privateKeySize]

variable [DeviceLibrary] {platform : Platform}

/-- A call of `Authorize` that nothing disturbs. -/
def authorizing (pid : Nat) (request : Request) (now : Int) : List Event :=
  .start pid (.authorize request now) :: List.replicate 14 (.step pid true)

variable {request : Request}

theorem run_authorizing {disk : Disk (Option File)} {proofs : List Proof} {now : Int}
    {value saved : Credential} {proof : Proof} (hreserve : reserve request disk.visible = .ok value)
    (hsaved : checkSaved value = .ok saved) (hprove : prove request now saved = .ok proof)
    (pid : Nat) :
    run platform (authorizing pid request now) { System.start disk with proofs := proofs } =
      { System.start (syncParent platform (disk.rename (some saved.encode))) with proofs :=
        proofs ++ [proof] } := by
  have hsaving : saving value (some (request, now)) = .staging saved (some (request, now)) .mkdirAll
    stagingCalls.tail := by
    rw [saving, hsaved]
  simp [run, authorizing, List.replicate, Event.exec, System.start, System.step, System.place,
    enter, advance, hreserve, hsaving, stagingCalls, hprove, proofOf, Except.map]

theorem exists_gatewayRequest :
    ∃ request :
    Request, sameGateway (text "https://gateway") request.url = true ∧ request.body = none := by
  obtain ⟨url, hurl⟩ := DeviceLibrary.parse_address
  refine ⟨{ method := text "GET", url := url, body := none }, ?_, rfl⟩
  have htrimmed :
    (trimSpace (text "https://gateway")).rdropWhile (· = slash) =
      text "https://gateway" := by decide
  rw [sameGateway, htrimmed, hurl]
  simp [equalFold]

theorem authorize_issued (hgateway : sameGateway (text "https://gateway") request.url = true)
    (hbody : request.body = none) (now : Int) :
    let file : File := some ⟨issuedCredential 0, issuedCredential_json 0⟩
    reserve request (some file) = .ok (issuedCredential 1) ∧ checkSaved (issuedCredential 1) =
      .ok (issuedCredential 1) ∧ ∃ proof, prove request now (issuedCredential 1) = .ok proof := by
  refine ⟨?_, ?_, ?_⟩
  · simp only [reserve, load, ok_iff]
    have hcounter : ¬ (0 : UInt64) = -1 := by decide
    refine ⟨issuedCredential 0, ⟨_, rfl, (), issuedCredential_validate 0, rfl⟩,
      (), ?_, (), hcounter, rfl⟩
    show ¬ sameGateway (text "https://gateway") request.url = false
    rw [hgateway]
    exact Bool.noConfusion
  · simp only [checkSaved, ok_iff]
    exact ⟨(), issuedCredential_validate 1, rfl⟩
  · have hprivate := decodeString_encodeToString .rawURL (List.replicate 64 0)
    have hdigest : requestBodyDigest request = .ok (DeviceLibrary.sum256 []) := by
      simp only [requestBodyDigest, hbody, ok_iff]
      exact ⟨(), by decide, rfl⟩
    simp only [prove, ok_iff]
    exact ⟨_, _, hdigest, _, hprivate, (), by simp [privateKeySize], rfl⟩

theorem reused_without_sync :
    ∃ disk events, Fresh disk events ∧ ¬ Increasing (run .other events (.start disk)).proofs := by
  obtain ⟨request, hgateway, hbody⟩ := exists_gatewayRequest
  obtain ⟨hreserve, hsaved, proof, hprove⟩ := authorize_issued hgateway hbody 0
  let disk : Disk (Option File) := {
    visible := some (some ⟨issuedCredential 0, issuedCredential_json 0⟩), undone := [] }
  refine ⟨disk, authorizing 0 request 0 ++ .powerFailure 1 :: authorizing 0 request 0, ?_, ?_⟩
  · have hnone :
      issued (authorizing 0 request 0 ++ .powerFailure 1 :: authorizing 0 request 0) = [] := rfl
    constructor
    · rw [hnone]
      exact List.nodup_nil
    · rw [hnone]
      intro id hid
      cases hid
  · let once : System :=
      { System.start (disk.rename (some (issuedCredential 1).encode)) with proofs := [proof] }
    let again : System := { System.start disk with proofs := [proof] }
    have hfirst : run .other (authorizing 0 request 0) (.start disk) = once :=
      run_authorizing hreserve hsaved hprove 0
    have hfailure : (Event.powerFailure 1).exec .other once = again := rfl
    have hsecond : (run .other (authorizing 0 request 0) again).proofs = [proof, proof] :=
      congrArg System.proofs (run_authorizing hreserve hsaved hprove 0)
    have hrun : (run .other (authorizing 0 request 0 ++ .powerFailure 1 :: authorizing 0 request 0)
        (.start disk)).proofs = [proof, proof] := by
      rw [run_append, hfirst, run_cons, hfailure]
      exact hsecond
    rw [hrun]
    intro hincreasing
    have hlt := (List.pairwise_cons.mp hincreasing).1 proof List.mem_cons_self rfl
    exact absurd hlt (UInt64.lt_irrefl _)

/-- On every platform that syncs directories, and on no other, each proof of a
credential has a higher counter than those of the earlier locked sections, in
every interleaving of processes, logins and crashes. Without power failures
this holds everywhere, and no reservation wraps the counter. -/
theorem device_proofs_iff (platform : Platform) :
    ((∀ disk events, Fresh disk events → Increasing (run platform events (.start disk)).proofs) ↔
      platform = .unix) ∧
    (∀ disk events, Fresh disk events → (∀ keep, .powerFailure keep ∉ events) →
      Increasing (run platform events (.start disk)).proofs) ∧
    ∀ request file value, reserve request file = .ok value →
      ∃ loaded, load file = .ok loaded ∧ value.counter.toNat = loaded.counter.toNat + 1 := by
  have hvisible (disk : Disk (Option File)) :
    (syncParent platform disk).visible = disk.visible := by
    cases platform <;> rfl
  refine ⟨⟨fun h => ?_, ?_⟩, fun disk events hfresh hpower => ?_,
    fun request file value hreserve => ?_⟩
  · cases platform with
    | unix => rfl
    | other =>
      obtain ⟨disk, events, hfresh, hreused⟩ := reused_without_sync
      exact absurd (h disk events hfresh) hreused
  · rintro rfl disk events hfresh
    let outlook : Outlook (syncParent .unix) True := Outlook.synced
    exact increasing_run outlook hfresh fun _ _ => trivial
  · exact increasing_run (Outlook.powered hvisible) hfresh fun keep hkeep => hpower keep hkeep
  · obtain ⟨loaded, hload, -, hsucc⟩ := reserve_eq_ok hreserve
    exact ⟨loaded, hload, hsucc⟩

end reuse

section sample

@[reducible] def DeviceLibrary.plain : DeviceLibrary where
  parse s := some { scheme := text "https", host := s, requestURI := [] }
  toLowerChar := Char.toLower
  foldChar := Char.toLower
  sum256 _ := []
  sign _ _ := []
  parse_address := ⟨_, rfl⟩

/-- After a power failure where directories are not synced, the counter of the
first proof is used again. -/
theorem counter_reused : letI := DeviceLibrary.plain
    ∃ (disk : Disk (Option File)) (request : Request), Fresh disk (authorizing 0 request 0 ++
      .powerFailure 1 ::
        authorizing 1 request 0) ∧
      ((run .other (authorizing 0 request 0 ++ .powerFailure 1 :: authorizing 1 request 0)
        (.start disk)).proofs.map
        fun p => (p.credentialID, p.counter)) = [(text "key", 1), (text "key", 1)] := by
  let library : DeviceLibrary := DeviceLibrary.plain
  refine ⟨{ visible := some (some ⟨issuedCredential 0, issuedCredential_json 0⟩), undone := [] },
    { method := text "GET",
      url := { scheme := text "https", host := text "https://gateway", requestURI := [] },
        body := none },
    ⟨List.nodup_nil, fun id hid => by cases hid⟩, ?_⟩
  decide +kernel

end sample

end MaltClient.DeviceAuth
