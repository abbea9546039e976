import MaltClient.Keyring

/-! Keyring files, open handles and recovery bundles under any sequence of
calls. -/

namespace MaltClient.BackupKeys

open GoText Checked AssocMap Base64

section

variable {disk disk' : Disk} {env : Env} {k k' : Keyring} {f : File} {path : GoString}

/-- The disk is as before, or one file has been replaced by one that keeps its
keys. -/
def Replaces (disk disk' : Disk) : Prop :=
  disk' = disk ∨ ∃ path data, disk' = Function.update disk path (some data) ∧ Kept data ∧
    ∀ f, disk path = some f → Grows f data

theorem Replaces.grows (h : Replaces disk disk') (hf : disk path = some f) :
    ∃ f', disk' path = some f' ∧ Grows f f' := by
  rcases h with rfl | ⟨path', data, rfl, -, hgrows⟩
  · exact ⟨f, hf, .refl f⟩
  · by_cases hpath : path = path'
    · subst hpath
      exact ⟨data, Function.update_self .., hgrows f hf⟩
    · exact ⟨f, by rw [Function.update_of_ne hpath, hf], .refl f⟩

theorem Replaces.kept (h : Replaces disk disk') (hfiles : ∀ path f, disk path = some f → Kept f)
    (hf : disk' path = some f) : Kept f := by
  rcases h with rfl | ⟨path', data, rfl, hdata, -⟩
  · exact hfiles path f hf
  · by_cases hpath : path = path'
    · subst hpath
      rw [Function.update_self] at hf
      exact Option.some.inj hf ▸ hdata
    · rw [Function.update_of_ne hpath] at hf
      exact hfiles path f hf

theorem write_replaces (hdata : Kept k.data) (hgrows : ∀ f, disk k.path = some f → Grows f k.data) :
    Replaces disk (k.write env disk).1 := by
  unfold Keyring.write
  cases env.write with
  | none => exact .inr ⟨k.path, k.data, rfl, hdata, hgrows⟩
  | aborted => exact .inl rfl
  | committed => exact .inr ⟨k.path, k.data, rfl, hdata, hgrows⟩

theorem write_stores (h : env.write ≠ .aborted) : (k.write env disk).1 k.path = some k.data := by
  unfold Keyring.write
  cases hw : env.write with
  | none => exact Function.update_self ..
  | aborted => exact absurd hw h
  | committed => exact Function.update_self ..

theorem write_eq_ok {u : Unit} (h : (k.write env disk).2 = .ok u) :
    (k.write env disk).1 k.path = some k.data := by
  refine write_stores fun hw => ?_
  simp [Keyring.write, hw] at h

def Backed (disk : Disk) (k : Keyring) : Prop :=
  ∃ f, disk k.path = some f ∧ epochName k.data.activeEpoch ∈ f.epochs ∧
    ∀ raw encoded, k.data.epochs.lookup raw = some encoded → f.epochs.lookup raw = some encoded

theorem Backed.mono (h : Backed disk k) (hdisk : Replaces disk disk') :
    Backed disk' k := by
  obtain ⟨f, hf, hactive, hepochs⟩ := h
  obtain ⟨f', hf', hgrows⟩ := hdisk.grows hf
  obtain ⟨encoded, hencoded⟩ := Option.isSome_iff_exists.mp (AList.lookup_isSome.mpr hactive)
  have hactive' : epochName k.data.activeEpoch ∈ f'.epochs :=
    AList.lookup_isSome.mp (by rw [hgrows.epochs _ _ hencoded]; rfl)
  exact ⟨f', hf', hactive', fun raw encoded he => hgrows.epochs raw encoded
    (hepochs raw encoded he)⟩

def Shows (disk : Disk) (k : Keyring) : Prop :=
  trimSpace k.path = k.path ∧ disk k.path = some k.data

theorem openFile_shows (h : openFile env disk path = .ok k) : Shows disk k := by
  obtain ⟨hpath, hdata⟩ := openFile_eq_ok h
  exact ⟨by rw [hpath, trimSpace_trimSpace], by rw [hpath, hdata]⟩

section calls

theorem kept_first (key : MasterKey) :
    Kept { version := version, activeEpoch := 1,
           epochs := (∅ : AList fun _ : GoString => GoString).insert (epochName 1)
             (encodeToString .rawStd key.1) } := by
  refine ⟨rfl, fun raw hraw => ?_, fun raw encoded he => ?_, (AList.mem_insert _).mpr (.inl rfl)⟩
  · have hname : raw = epochName 1 :=
      ((AList.mem_insert _).mp hraw).resolve_right (AList.notMem_empty raw)
    exact ⟨1, hname, by decide, UInt32.le_refl _⟩
  · simp only [lookup_insert_eq, AList.lookup_empty] at he
    split_ifs at he
    cases he
    exact ⟨key.1, decodeString_encodeToString .rawStd key.1, key.2⟩

theorem create_cases (env : Env) (path : GoString) (disk : Disk) :
    Replaces disk (create env path disk).1 ∧
      ∀ k, (create env path disk).2 = .ok k → Shows (create env path disk).1 k := by
  dsimp only [create]
  split_ifs with hempty hlock hsome
  · exact ⟨.inl rfl, fun k hk => by cases hk⟩
  · exact ⟨.inl rfl, fun k hk => by cases hk⟩
  · exact ⟨.inl rfl, fun k hk => openFile_shows hk⟩
  · cases env.random with
    | none => exact ⟨.inl rfl, fun k hk => by cases hk⟩
    | some key =>
      refine ⟨write_replaces (kept_first key) fun f hf => absurd (by rw [hf]; rfl) hsome,
        fun k hk => ?_⟩
      obtain ⟨u, hu, rfl⟩ := map_eq_ok.mp hk
      exact ⟨trimSpace_trimSpace path, write_eq_ok hu⟩

structure Loses (env : Env) (k : Keyring) (disk : Disk) : Prop where
  path : trimSpace k.path ≠ []
  locked : env.locked = true
  generates : env.random.isSome = true
  aborted : env.write = .aborted
  reads : ∃ current, openFile env disk k.path = .ok current ∧
    current.data.activeEpoch.toNat ≠ 2 ^ 32 - 1

/-- `Rotate` leaves everything alone, or reads the file into the handle, or adds
an epoch to the handle and, unless it loses the key, to the file. -/
theorem rotate_cases (env : Env) (disk : Disk) (hpath : trimSpace k.path = k.path) :
    ((rotate env k disk).1 = disk ∧ (rotate env k disk).2.1 = k ∧ ¬ Loses env k disk) ∨
      (∃ f, disk k.path = some f ∧ (rotate env k disk).1 = disk ∧ (rotate env k disk).2.1 =
        { k with data := f } ∧ ¬ Loses env k disk) ∨
      ∃ f key, disk k.path = some f ∧ f.activeEpoch.toNat ≠ 2 ^ 32 - 1 ∧
        (rotate env k disk).2.1 = { k with data := rotated f key } ∧
        ((Loses env k disk ∧ (rotate env k disk).1 = disk) ∨
          ¬ Loses env k disk ∧ (rotate env k disk).1 =
            Function.update disk k.path (some (rotated f key))) := by
  dsimp only [rotate]
  split_ifs with hempty hlock
  · exact .inl ⟨rfl, rfl, fun h => h.path hempty⟩
  · exact .inl ⟨rfl, rfl, fun h => absurd h.locked (by simp [hlock])⟩
  · cases hopen : openFile env disk k.path with
    | error e =>
      refine .inl ⟨rfl, rfl, fun h => ?_⟩
      obtain ⟨current, hcurrent, -⟩ := h.reads
      simp [hopen] at hcurrent
    | ok current =>
      obtain ⟨-, hdata⟩ := openFile_eq_ok hopen
      rw [hpath] at hdata
      dsimp only
      split_ifs with hmax
      · refine .inr (.inl ⟨current.data, hdata, rfl, rfl, fun h => ?_⟩)
        obtain ⟨current', hcurrent, hne⟩ := h.reads
        obtain rfl := Except.ok.inj (hopen.symm.trans hcurrent)
        exact hne hmax
      · cases hrandom : env.random with
        | none =>
          exact .inr (.inl ⟨current.data, hdata, rfl, rfl,
            fun h => absurd h.generates (by simp [hrandom])⟩)
        | some key =>
          refine .inr (.inr ⟨current.data, key, hdata, hmax, rfl, ?_⟩)
          cases hwrite : env.write with
          | none =>
            refine .inr ⟨fun h => absurd h.aborted (by simp [hwrite]), ?_⟩
            simp [Keyring.write, hwrite]
          | aborted =>
            refine .inl ⟨⟨hempty, by simpa using hlock, by simp [hrandom], hwrite, current,
              hopen, hmax⟩, ?_⟩
            simp [Keyring.write, hwrite]
          | committed =>
            refine .inr ⟨fun h => absurd h.aborted (by simp [hwrite]), ?_⟩
            simp [Keyring.write, hwrite]

theorem rotate_replaces (env : Env) (hfiles : ∀ path f, disk path = some f → Kept f)
    (hpath : trimSpace k.path = k.path) : Replaces disk (rotate env k disk).1 := by
  rcases rotate_cases env disk hpath with ⟨hdisk, -⟩ | ⟨f, -, hdisk, -⟩ | ⟨f, key, hf, hmax, -,
    hlost | ⟨-, hdisk⟩⟩
  · exact .inl hdisk
  · exact .inl hdisk
  · exact .inl hlost.2
  · obtain ⟨hkept, hgrows⟩ := (hfiles k.path f hf).rotated hmax key
    exact .inr ⟨k.path, rotated f key, hdisk, hkept,
      fun f' hf' => Option.some.inj (hf.symm.trans hf') ▸ hgrows⟩

variable [KeyCrypto]

/-- A bundle is sealed over a file, with the key of some passphrase. -/
def Seals (bundle : Bundle) (f : File) : Prop :=
  ∃ key, bundle.ciphertext = KeyCrypto.sealed key bundle.nonce f

theorem exportRecovery_cases (env : Env) (passphrase salt nonce : List UInt8) (disk : Disk)
    (hpath : trimSpace k.path = k.path) :
    ((exportRecovery env k passphrase salt nonce disk).1 = k ∧
      ∃ e, (exportRecovery env k passphrase salt nonce disk).2 = .error e) ∨
      ∃ f, disk k.path = some f ∧ (exportRecovery env k passphrase salt nonce disk).1 =
        { k with data := f } ∧
        ∃ bundle, (exportRecovery env k passphrase salt nonce disk).2 = .ok bundle ∧
          Seals bundle f := by
  unfold exportRecovery
  cases validateRecoveryPassphrase passphrase with
  | error e => exact .inl ⟨rfl, e, rfl⟩
  | ok u =>
    dsimp only
    split_ifs with hlock
    · exact .inl ⟨rfl, _, rfl⟩
    · cases hopen : openFile env disk k.path with
      | error e => exact .inl ⟨rfl, e, rfl⟩
      | ok current =>
        obtain ⟨-, hdata⟩ := openFile_eq_ok hopen
        exact .inr ⟨current.data, hpath ▸ hdata, rfl, _, rfl, _, rfl⟩

variable {bundle : Bundle}

theorem Seals.openBundle_eq_ok {passphrase : List UInt8} {value : File} (hseals : Seals bundle f)
    (h : openBundle passphrase bundle = .ok value) : value = f := by
  simp only [openBundle, ok_iff] at h
  obtain ⟨-, -, -, -, -, -, _, hopened, -, -, rfl⟩ := h
  obtain ⟨key, hkey⟩ := hseals
  rw [hkey] at hopened
  exact KeyCrypto.eq_of_opened hopened

/-- `ImportRecovery` fails and leaves the disk alone, or writes a file with the
keys of the bundle and those that were there. -/
theorem importRecovery_cases (env : Env) (bundle : Bundle) (path : GoString)
    (passphrase : List UInt8) (disk : Disk) :
    ((importRecovery env bundle path passphrase disk).1 = disk ∧
        ∃ e, (importRecovery env bundle path passphrase disk).2 = .error e) ∨
      ∃ value data, openBundle passphrase bundle = .ok value ∧
        (importRecovery env bundle path passphrase disk).1 =
          (Keyring.write ⟨trimSpace path, data⟩ env disk).1 ∧
        (importRecovery env bundle path passphrase disk).2 =
          (Keyring.write ⟨trimSpace path, data⟩ env disk).2.map (fun _ => ⟨trimSpace path, data⟩) ∧
        ((disk (trimSpace path) = none ∧ data = value) ∨
          ∃ f, disk (trimSpace path) = some f ∧ mergeFiles f value = .ok data) := by
  dsimp only [importRecovery]
  cases hbundle : openBundle passphrase bundle with
  | error e => exact .inl ⟨rfl, e, rfl⟩
  | ok value =>
    dsimp only
    split_ifs with hempty hlock hnone
    · exact .inl ⟨rfl, _, rfl⟩
    · exact .inl ⟨rfl, _, rfl⟩
    · exact .inr ⟨value, value, rfl, rfl, rfl, .inl ⟨Option.isNone_iff_eq_none.mp hnone, rfl⟩⟩
    · cases hmerge : (do
          let current ← openFile env disk (trimSpace path)
          mergeFiles current.data value : Except KeyringError File) with
      | error e => exact .inl ⟨rfl, e, rfl⟩
      | ok data =>
        obtain ⟨current, hopen, hdata⟩ := bind_eq_ok.mp hmerge
        obtain ⟨-, hcurrent⟩ := openFile_eq_ok hopen
        rw [trimSpace_trimSpace] at hcurrent
        exact .inr ⟨value, data, rfl, rfl, rfl, .inr ⟨current.data, hcurrent, hdata⟩⟩

theorem importRecovery_replaces (env : Env) (path : GoString) (passphrase : List UInt8)
    (hfiles : ∀ path f, disk path = some f → Kept f) {source : File} (hbundle : Seals bundle source)
    (hsource : Kept source) : Replaces disk (importRecovery env bundle path passphrase disk).1 ∧
      ∀ k, (importRecovery env bundle path passphrase disk).2 = .ok k →
        Shows (importRecovery env bundle path passphrase disk).1 k ∧ k.path = trimSpace path ∧
          ∀ epoch master, masterKey source epoch = .ok master → masterKey k.data epoch =
            .ok master := by
  rcases importRecovery_cases env bundle path passphrase disk with ⟨hdisk, e, he⟩ | ⟨value, data,
    hopen, hdisk, hresult, hdata⟩
  · exact ⟨.inl hdisk, fun k hk => by simp [he] at hk⟩
  obtain rfl := hbundle.openBundle_eq_ok hopen
  have hkept : Kept data ∧ (∀ f, disk (trimSpace path) = some f → Grows f data) ∧
      ∀ epoch master, masterKey value epoch = .ok master → masterKey data epoch = .ok master := by
    rcases hdata with ⟨hnone, rfl⟩ | ⟨f, hf, hmerge⟩
    · exact ⟨hsource, fun f hf => by simp [hnone] at hf, fun _ _ h => h⟩
    · obtain ⟨hkept, hgrows, hkeys⟩ := mergeFiles_eq_ok (hfiles _ f hf) hsource hmerge
      exact ⟨hkept, fun f' hf' => Option.some.inj (hf.symm.trans hf') ▸ hgrows, hkeys⟩
  rw [hdisk, hresult]
  refine ⟨write_replaces hkept.1 hkept.2.1, fun k hk => ?_⟩
  obtain ⟨u, hu, rfl⟩ := map_eq_ok.mp hk
  exact ⟨⟨trimSpace_trimSpace path, write_eq_ok hu⟩, rfl, hkept.2.2⟩

end calls

end

/-- The keyring files of all machines, the handles that are open, and the
recovery bundles that have been written, each with the file that it is made of. -/
structure World [KeyCrypto] where
  disk : Disk
  handles : Nat → Option Keyring
  bundles : List (Bundle × File)

inductive Event where
  | create (handle : Nat) (path : GoString) (env : Env)
  | openKeyring (handle : Nat) (path : GoString) (env : Env)
  | rotate (handle : Nat) (env : Env)
  | exportRecovery (handle : Nat) (passphrase salt nonce : List UInt8) (env : Env)
  | importRecovery (handle bundle : Nat) (path : GoString) (passphrase : List UInt8) (env : Env)

def hold (handle : Nat) (result : Except KeyringError Keyring) (handles : Nat → Option Keyring) :
    Nat → Option Keyring :=
  match result with
  | .ok k => Function.update handles handle (some k)
  | .error _ => handles

section

variable [KeyCrypto]

def step (w : World) : Event → World
  | .create handle path env =>
    let (disk, result) := create env path w.disk
    { w with disk := disk, handles := hold handle result w.handles }
  | .openKeyring handle path env =>
    { w with handles := hold handle (openFile env w.disk path) w.handles }
  | .rotate handle env =>
    match w.handles handle with
    | none => w
    | some k =>
      let (disk, k, _) := rotate env k w.disk
      { w with disk := disk, handles := Function.update w.handles handle (some k) }
  | .exportRecovery handle passphrase salt nonce env =>
    match w.handles handle with
    | none => w
    | some k =>
      let (k, result) := exportRecovery env k passphrase salt nonce w.disk
      let handles := Function.update w.handles handle (some k)
      match result with
      | .error _ => { w with handles := handles }
      | .ok bundle =>
        { w with
          handles := handles
          bundles := if env.write = .aborted then w.bundles else w.bundles ++ [(bundle, k.data)] }
  | .importRecovery handle bundle path passphrase env =>
    match w.bundles[bundle]? with
    | none => w
    | some (bundle, _) =>
      let (disk, result) := importRecovery env bundle path passphrase w.disk
      { w with disk := disk, handles := hold handle result w.handles }

def run (events : List Event) : World :=
  events.foldl step { disk := fun _ => none, handles := fun _ => none, bundles := [] }

structure Sound (w : World) : Prop where
  files : ∀ path f, w.disk path = some f → Kept f
  bundles : ∀ b ∈ w.bundles, Seals b.1 b.2 ∧ Kept b.2
  paths : ∀ handle k, w.handles handle = some k → trimSpace k.path = k.path

variable {w : World} {events : List Event}

structure Effect (w : World) (event : Event) (w' : World) : Prop where
  disk : Replaces w.disk w'.disk
  bundles : ∀ b ∈ w'.bundles, b ∈ w.bundles ∨ Seals b.1 b.2 ∧ ∃ path, w.disk path = some b.2
  handles :
    ∀ handle k', w'.handles handle = some k' → w.handles handle = some k' ∨ Shows w'.disk k' ∨
    ∃ env k f key, event = .rotate handle env ∧ w.handles handle = some k ∧ Loses env k w.disk ∧
      w.disk k.path = some f ∧ f.activeEpoch.toNat ≠ 2 ^ 32 - 1 ∧
        k' = { k with data := rotated f key }

variable {k : Keyring} {handle : Nat} {disk' disk : Disk} {event : Event} {path : GoString}

omit [KeyCrypto] in
theorem eq_or_of_update {handle' : Nat} {handles : Nat → Option Keyring} {k' : Keyring}
    (h : Function.update handles handle (some k') handle' = some k) :
    handles handle' = some k ∨ (handle' = handle ∧ k' = k) := by
  by_cases hh : handle' = handle
  · rw [hh, Function.update_self] at h
    exact .inr ⟨hh, Option.some.inj h⟩
  · rw [Function.update_of_ne hh] at h
    exact .inl h

theorem Effect.refl (w : World) (event : Event) : Effect w event w :=
  ⟨.inl rfl, fun _ h => .inl h, fun _ _ h => .inl h⟩

theorem Effect.of_hold {result : Except KeyringError Keyring}
    (hdisk : Replaces w.disk disk') (hresult : ∀ k, result = .ok k → Shows disk' k) :
    Effect w event { w with disk := disk', handles := hold handle result w.handles } := by
  refine ⟨hdisk, fun _ h => .inl h, fun handle' k' h => ?_⟩
  cases result with
  | error e => exact .inl h
  | ok k =>
    rcases eq_or_of_update h with h | ⟨-, rfl⟩
    · exact .inl h
    · exact .inr (.inl (hresult k rfl))

theorem step_effect (hs : Sound w) (event : Event) : Effect w event (step w event) := by
  cases event with
  | create handle path env =>
    obtain ⟨hdisk, hresult⟩ := create_cases env path w.disk
    exact Effect.of_hold hdisk hresult
  | openKeyring handle path env => exact Effect.of_hold (.inl rfl) fun k hk => openFile_shows hk
  | rotate handle env =>
    cases hk : w.handles handle with
    | none =>
      simp only [step, hk]
      exact Effect.refl w _
    | some k =>
      have hpath := hs.paths handle k hk
      simp only [step, hk]
      refine ⟨rotate_replaces env hs.files hpath, fun _ h => .inl h, fun handle' k' h => ?_⟩
      rcases eq_or_of_update h with h | ⟨rfl, rfl⟩
      · exact .inl h
      rcases rotate_cases env w.disk hpath with ⟨-, hsame, -⟩ | ⟨f, hf, hdisk, hdata, -⟩ |
          ⟨f, key, hf, hmax, hdata, ⟨hlost, -⟩ | ⟨-, hdisk⟩⟩
      · exact .inl (by rw [hsame, hk])
      · rw [hdata, hdisk]
        exact .inr (.inl ⟨hpath, hf⟩)
      · exact .inr (.inr ⟨env, k, f, key, rfl, hk, hlost, hf, hmax, hdata⟩)
      · rw [hdata, hdisk]
        exact .inr (.inl ⟨hpath, Function.update_self ..⟩)
  | exportRecovery handle passphrase salt nonce env =>
    cases hk : w.handles handle with
    | none =>
      simp only [step, hk]
      exact Effect.refl w _
    | some k =>
      rcases exportRecovery_cases env passphrase salt nonce w.disk (hs.paths handle k hk) with
        ⟨hsame, e, he⟩ | ⟨f, hf, hdata, bundle, hb, hseals⟩
      · simp only [step, hk, he, hsame]
        refine ⟨.inl rfl, fun _ h => .inl h, fun handle' k' h => ?_⟩
        rcases eq_or_of_update h with h | ⟨rfl, rfl⟩
        · exact .inl h
        · exact .inl hk
      · simp only [step, hk, hb, hdata]
        refine ⟨.inl rfl, fun b h => ?_, fun handle' k' h => ?_⟩
        · split_ifs at h
          · exact .inl h
          · rcases List.mem_append.mp h with h | h
            · exact .inl h
            · obtain rfl := List.mem_singleton.mp h
              exact .inr ⟨hseals, k.path, hf⟩
        · rcases eq_or_of_update h with h | ⟨-, rfl⟩
          · exact .inl h
          · exact .inr (.inl ⟨hs.paths handle k hk, hf⟩)
  | importRecovery handle bundle path passphrase env =>
    cases hb : w.bundles[bundle]? with
    | none =>
      simp only [step, hb]
      exact Effect.refl w _
    | some b =>
      obtain ⟨hseals, hkept⟩ := hs.bundles b (List.mem_of_getElem? hb)
      obtain ⟨hdisk, hresult⟩ := importRecovery_replaces env path passphrase hs.files hseals hkept
      simp only [step, hb]
      exact Effect.of_hold hdisk fun k hk => (hresult k hk).1

theorem Sound.step (hs : Sound w) (event : Event) : Sound (step w event) := by
  have heffect := step_effect hs event
  refine ⟨fun path f hf => heffect.disk.kept hs.files hf, fun b hb => ?_, fun handle k hk => ?_⟩
  · rcases heffect.bundles b hb with hb | ⟨hseals, path, hf⟩
    · exact hs.bundles b hb
    · exact ⟨hseals, hs.files path _ hf⟩
  · rcases heffect.handles handle k hk with hk | hshows | ⟨env, k₀, f, key, -, hk₀, -, -, -, rfl⟩
    · exact hs.paths handle k hk
    · exact hshows.1
    · exact hs.paths handle k₀ hk₀

theorem run_append (before after : List Event) :
    run (before ++ after) = after.foldl step (run before) := by
  rw [run, List.foldl_append, ← run]

theorem sound_foldl (hs : Sound w) (events : List Event) :
    Sound (events.foldl BackupKeys.step w) := by
  induction events generalizing w with
  | nil => exact hs
  | cons event events ih => exact ih (hs.step event)

theorem sound_run (events : List Event) : Sound (run events) := by
  refine sound_foldl ⟨?_, ?_, ?_⟩ events
  · intro path f hf
    cases hf
  · intro bundle hb
    cases hb
  · intro handle k hk
    cases hk

theorem foldl_grows (hs : Sound w) {f : File} (hf : w.disk path = some f) (events : List Event) :
    ∃ f', (events.foldl BackupKeys.step w).disk path = some f' ∧ Grows f f' := by
  induction events generalizing w f with
  | nil => exact ⟨f, hf, .refl f⟩
  | cons event events ih =>
    obtain ⟨f₁, hf₁, hgrows₁⟩ := (step_effect hs event).disk.grows hf
    obtain ⟨f', hf', hgrows⟩ := ih (hs.step event) hf₁
    exact ⟨f', hf', hgrows₁.trans hgrows⟩

def derives (disk : Disk) (path : GoString) (epoch : UInt32) (bucketID : GoString) :
    Except KeyringError (List UInt8) := do
  let k ← openFile { locked := true, readable := true, random := none, write := .none } disk path
  bucketKey k.data epoch bucketID

theorem derives_eq_ok (hfiles : ∀ path f, disk path = some f → Kept f) {bucketID : GoString}
    {epoch : UInt32} {key : List UInt8} : derives disk path epoch bucketID = .ok key ↔
      ∃ f, disk (trimSpace path) = some f ∧ bucketKey f epoch bucketID = .ok key := by
  simp only [derives, bind_eq_ok]
  constructor
  · intro h
    obtain ⟨k, hopen, hkey⟩ := h
    exact ⟨k.data, (openFile_eq_ok hopen).2, hkey⟩
  · intro h
    obtain ⟨f, hf, hkey⟩ := h
    refine ⟨⟨trimSpace path, f⟩, ?_, hkey⟩
    simp only [openFile, ok_iff]
    exact ⟨f, hf, (), by simp, (), (hfiles _ f hf).validateFile, rfl⟩

/-- Over any sequence of calls, with failures at any step: a key that a keyring
file derives is derived by every later state of the file; the active epoch is
there, is the largest and never decreases; a successful import makes every
epoch of the file that its bundle is made of derivable, with the same key; one
that meets another key for an epoch changes nothing. -/
theorem keys_kept (before after : List Event) :
    (∀ path epoch bucketID key, derives (run before).disk path epoch bucketID = .ok key →
      derives (run (before ++ after)).disk path epoch bucketID = .ok key) ∧
    (∀ path f, (run before).disk path = some f →
      epochName f.activeEpoch ∈ f.epochs ∧
      (∀ raw ∈ f.epochs, ∃ epoch, raw = epochName epoch ∧ epoch ≤ f.activeEpoch) ∧
      ∃ f', (run (before ++ after)).disk path = some f' ∧ f.activeEpoch ≤ f'.activeEpoch) ∧
    (∀ bundle source, (bundle, source) ∈ (run before).bundles → ∀ env path passphrase k,
      (importRecovery env bundle path passphrase (run before).disk).2 = .ok k →
      ∀ epoch bucketID key, bucketKey source epoch bucketID = .ok key →
        derives (importRecovery env bundle path passphrase (run before).disk).1 path epoch
          bucketID = .ok key) ∧
    ∀ bundle env path passphrase f value epoch master master', (run before).disk (trimSpace path) =
      some f → openBundle passphrase bundle = .ok value →
      masterKey f epoch = .ok master → masterKey value epoch = .ok master' → master ≠ master' →
      (importRecovery env bundle path passphrase (run before).disk).1 = (run before).disk ∧
        ∃ e, (importRecovery env bundle path passphrase (run before).disk).2 = .error e := by
  have hs := sound_run before
  refine ⟨fun path epoch bucketID key h => ?_, fun path f hf => ?_,
    fun bundle source hb env path passphrase k hk => ?_, ?_⟩
  · obtain ⟨f, hf, hkey⟩ := (derives_eq_ok hs.files).mp h
    rw [run_append]
    obtain ⟨f', hf', hgrows⟩ := foldl_grows hs hf after
    have hs' := sound_foldl hs after
    exact (derives_eq_ok hs'.files).mpr ⟨f', hf',
      bucketKey_of_masterKey (fun _ => masterKey_mono hgrows.epochs) hkey⟩
  · have hkept := hs.files path f hf
    rw [run_append]
    obtain ⟨f', hf', hgrows⟩ := foldl_grows hs hf after
    refine ⟨hkept.active, fun raw hraw => ?_, f', hf', hgrows.active⟩
    obtain ⟨epoch, hname, -, hle⟩ := hkept.named raw hraw
    exact ⟨epoch, hname, hle⟩
  · intro epoch bucketID key hkey
    obtain ⟨hdisk, hresult⟩ := importRecovery_replaces env path passphrase hs.files
      (hs.bundles _ hb).1 (hs.bundles _ hb).2
    obtain ⟨hshows, hpath, hmaster⟩ := hresult k hk
    refine (derives_eq_ok fun _ _ hf => hdisk.kept hs.files hf).mpr ⟨k.data, ?_,
      bucketKey_of_masterKey (hmaster epoch) hkey⟩
    rw [← hpath]
    exact hshows.2
  · intro bundle env path passphrase f value epoch master master' hf hopen hmaster hmaster' hne
    rcases importRecovery_cases env bundle path passphrase (run before).disk with
      h | ⟨value', data, hopen', -, -, ⟨hnone, -⟩ | ⟨f', hf', hmerge⟩⟩
    · exact h
    · simp [hf] at hnone
    · obtain rfl : f = f' := Option.some.inj (hf.symm.trans hf')
      obtain rfl := Except.ok.inj (hopen.symm.trans hopen')
      exact absurd hmerge (mergeFiles_conflict hmaster hmaster' hne data)

def Stored (disk : Disk) (k : Keyring) : Prop :=
  ∃ f, disk k.path = some f ∧ epochName k.data.activeEpoch ∈ f.epochs ∧
    ∀ epoch bucketID key, bucketKey k.data epoch bucketID = .ok key →
      bucketKey f epoch bucketID = .ok key

theorem Backed.stored (h : Backed disk k) : Stored disk k := by
  obtain ⟨f, hf, hactive, hepochs⟩ := h
  exact ⟨f, hf, hactive, fun _ _ _ hkey => bucketKey_of_masterKey (fun _ =>
    masterKey_mono hepochs) hkey⟩

theorem backed_step (hs : Sound w) (h : ∀ handle k, w.handles handle = some k → Backed w.disk k)
    (hkeeps : ∀ handle env k, event = .rotate handle env → w.handles handle = some k →
      ¬ Loses env k w.disk) :
    ∀ handle k, (step w event).handles handle = some k → Backed (step w event).disk k := by
  have heffect := step_effect hs event
  intro handle k hk
  rcases heffect.handles handle k hk with hk | hshows | ⟨env, k₀, -, -, hevent, hk₀, hlost, -⟩
  · exact (h handle k hk).mono heffect.disk
  · exact ⟨k.data, hshows.2, ((hs.step event).files _ _ hshows.2).active, fun _ _ he => he⟩
  · exact absurd hlost (hkeeps handle env k₀ hevent hk₀)

theorem not_stored_of_loses (hs : Sound w) {env : Env} (hk : w.handles handle = some k)
    (hlost : Loses env k w.disk) : ∃ k', (step w (.rotate handle env)).handles handle = some k' ∧
      ¬ Stored (step w (.rotate handle env)).disk k' := by
  have hpath := hs.paths handle k hk
  simp only [step, hk]
  refine ⟨_, Function.update_self .., fun hstored => ?_⟩
  obtain ⟨f', hf', hactive, -⟩ := hstored
  rcases rotate_cases env w.disk hpath with ⟨-, -, hnot⟩ | ⟨f, -, -, -, hnot⟩ |
      ⟨f, key, hf, hmax, hdata, ⟨-, hdisk⟩ | ⟨hnot, -⟩⟩
  · exact hnot hlost
  · exact hnot hlost
  · rw [hdata] at hactive hf'
    rw [hdisk] at hf'
    obtain rfl : f = f' := Option.some.inj (hf.symm.trans hf')
    exact (hs.files k.path f hf).notMem_next hmax hactive
  · exact hnot hlost

/-- In every state of a run all handles offer stored keys only, exactly if no
`Rotate` of the run generates a key and fails before the file is replaced. -/
theorem handles_stored_iff (events : List Event) :
    (∀ before after, events = before ++ after →
      ∀ handle k, (run before).handles handle = some k → Stored (run before).disk k) ↔
    ∀ before after handle env k, events = before ++ .rotate handle env :: after →
      (run before).handles handle = some k → ¬ Loses env k (run before).disk := by
  constructor
  · intro h before after handle env k hevents hk hlost
    obtain ⟨k', hk', hnot⟩ := not_stored_of_loses (sound_run before) hk hlost
    have hrun : run (before ++ [.rotate handle env]) = step (run before) (.rotate handle env) := by
      rw [run_append, List.foldl_cons, List.foldl_nil]
    refine hnot ?_
    rw [← hrun] at hk' ⊢
    exact h (before ++ [.rotate handle env]) after (by rw [hevents, List.append_assoc]; rfl)
      handle k' hk'
  · intro h before
    -- every state of the run is reached by calls that lose no key
    suffices hbacked : ∀ after, events = before ++ after →
        ∀ handle k, (run before).handles handle = some k → Backed (run before).disk k from
      fun after hevents handle k hk => (hbacked after hevents handle k hk).stored
    induction before using List.reverseRecOn with
    | nil =>
      intro after _ handle k hk
      cases hk
    | append_singleton before event ih =>
      intro after hevents
      have hsplit : events = before ++ event :: after := by rw [hevents, List.append_assoc]; rfl
      rw [run_append, List.foldl_cons, List.foldl_nil]
      refine backed_step (sound_run before) (ih _ hsplit) fun handle env k hevent hk => ?_
      exact h before after handle env k (hevent ▸ hsplit) hk

end

@[reducible] def KeyCrypto.spelled : KeyCrypto where
  hmac master message := master ++ message
  scrypt passphrase salt := passphrase ++ salt
  Ciphertext := List UInt8 × File
  sealed key _ plaintext := (key, plaintext)
  opened key _ c := if c.1 = key then some c.2 else none
  opened_sealed := by simp
  eq_of_opened := by simp

def failedRotation : List Event :=
  let env : Env := { locked := true, readable := true, random := some ⟨List.replicate 32 0, rfl⟩,
                     write := .none }
  [.create 0 (text "keys") env, .rotate 0 { env with write := .aborted }]

theorem rotate_shows_unstored : letI := KeyCrypto.spelled
    ((run failedRotation).handles 0).map (fun k => k.data.activeEpoch) = some 2 ∧
      (((run failedRotation).handles 0).map fun k => (bucketKey k.data 2 (text "b")).isOk) =
        some true ∧
      ((run failedRotation).disk (text "keys")).map (fun f => (bucketKey f 2 (text "b")).isOk) =
        some false := by
  decide +kernel

end MaltClient.BackupKeys
