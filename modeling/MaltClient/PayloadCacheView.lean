import MaltClient.PayloadCacheRuns

/-! The files of the cache against the store that the staging service is given:
whatever a call does to the files, the entries that they show change as by the
same call on the store, with one of its faults. -/

namespace MaltClient.PayloadCache

open GoText Checked AssocMap FaultyIO FaultyIO.Prog
open Cache (State Binding Store normalizeBinding sumsBody)

variable [CidFormat] [BindingHash]

def Entry.shown (e : Entry) (body : Option (List UInt8)) : Option Cache.Entry :=
  e.state.map fun state => { state := state, body := if e.bodyPresent = true then body else none }

/-- What the files show of a binding. -/
def view (m : Metadata) (f : Files) (b : Binding) : Option Cache.Entry :=
  (m.lookup (bindingID b)).bind fun e => e.shown (f.body (bindingID b))

def Shows (m : Metadata) (f : Files) (store : Store) : Prop :=
  ∀ b, normalizeBinding b = .ok b → store.lookup b = view m f b

def Represents (f : Files) (store : Store) : Prop := ∀ m, loaded f = .ok m → Shows m f store

def Action.reads : Action → Bool
  | .readLocalBounded .. | .verifyLocal .. | .readLocalRange .. | .inspect .. | .list => true
  | _ => false

section shows

variable {m m' : Metadata} {f g g' : Files} {store store' : Store} {b : Binding} {e : Entry}
  {data : Option (List UInt8)} {entry : Cache.Entry}

omit [BindingHash] in
theorem shown_of_not_referenced {id : GoString} (h : referenced m id = false)
    (body body' : Option (List UInt8)) :
    (m.lookup id).bind (fun e => e.shown body) = (m.lookup id).bind fun e => e.shown body' := by
  cases hl : m.lookup id with
  | none => rfl
  | some e =>
    have habsent : e.bodyPresent = false := by simpa [referenced, hl] using h
    simp [Entry.shown, habsent]

theorem Collected.view (h : Collected m f g) (b : Binding) : view m g b = view m f b := by
  unfold PayloadCache.view
  rcases h.body (bindingID b) with hsame | ⟨hnone, -⟩
  · rw [hsame]
  · exact shown_of_not_referenced hnone _ _

theorem Represents.collected (h : Represents f store) (hm : loaded f = .ok m)
    (hg : Collected m f g) : Shows m g store := fun b hb => (h m hm b hb).trans (hg.view b).symm

theorem Shows.represents (h : Shows m g store) (hm : loaded g = .ok m) : Represents g store := by
  intro m' hm'
  cases hm.symm.trans hm'
  exact h

theorem Shows.withMetadata (h : Shows m g store) : Represents (g.withMetadata m) store := by
  intro m' hm' b hb
  rw [h b hb, view, view]
  rcases loaded_withMetadata hm' (bindingID b) with ⟨hl, hl'⟩ | ⟨e, b', hl, hl'⟩ <;>
    rw [hl, hl'] <;> rfl

/-- A change under one binding. -/
theorem Shows.insert (h : Shows m g store) (hother : ∀ x, x ≠ b → view m' g' x = view m g x)
    (hat : view m' g' b = some entry) : Shows m' g' (store.insert b entry) := by
  intro x hx
  rw [lookup_insert_eq]
  split_ifs with he
  · rw [he, hat]
  · rw [hother x he, h x hx]

variable (hinj : ∀ b b' : Binding, bindingID b = bindingID b' → b = b')

include hinj

theorem view_withBody_of_ne {x : Binding} (hx : x ≠ b) :
    view m (g.withBody (bindingID b) data) x = view m g x := by
  have hne : bindingID x ≠ bindingID b := fun he => hx (hinj x b he)
  simp only [view, Files.withBody, Function.update_of_ne hne]

theorem view_insert_of_ne {x : Binding} (hx : x ≠ b) :
    view (m.insert (bindingID b) e) g x = view m g x := by
  have hne : bindingID x ≠ bindingID b := fun he => hx (hinj x b he)
  rw [view, view, lookup_insert_eq, if_neg hne]

omit hinj in
theorem view_insert_self :
    view (m.insert (bindingID b) e) g b = e.shown (g.body (bindingID b)) := by
  rw [view, lookup_insert_eq, if_pos rfl, Option.bind_some]

theorem Shows.put (h : Shows m g store) (he : e.shown data = some entry) :
    Represents ((g.withBody (bindingID b) data).withMetadata (m.insert (bindingID b) e))
      (store.insert b entry) := by
  refine Shows.withMetadata (h.insert (fun x hx => ?_) ?_)
  · rw [view_insert_of_ne hinj hx, view_withBody_of_ne hinj hx]
  · simp only [view_insert_self, Files.withBody, Function.update_self, he]

theorem Shows.edit (h : Shows m g store) (he : e.shown (g.body (bindingID b)) = some entry) :
    Represents (g.withMetadata (m.insert (bindingID b) e)) (store.insert b entry) := by
  have hput := h.put (b := b) hinj he
  rwa [Files.withBody, Function.update_eq_self] at hput

/-- A body that no entry refers to is not seen. -/
theorem Shows.withBody (h : Shows m g store) (hnone : referenced m (bindingID b) = false) :
    Shows m (g.withBody (bindingID b) data) store := by
  intro x hx
  rw [h x hx]
  by_cases he : x = b
  · subst he
    exact shown_of_not_referenced hnone _ _
  · exact (view_withBody_of_ne hinj he).symm

end shows

section calls

variable [PayloadHash] {d d' : Disk} {store : Store} {now : Stamp} {raw b : Binding}
  {body : List UInt8} {state next : State} {m : Metadata} {f g h : Files} {c : Action}

omit [PayloadHash] in
theorem Represents.quiet (hf : Represents f store) (hm : loaded f = .ok m) (hg : Collected m f g) :
    Represents g store :=
  (hf.collected hm hg).represents (by rw [← hm, loaded, loaded, hg.metadata])

theorem admitLocal_of_shows (hs : Shows m g store) (hb : normalizeBinding raw = .ok b)
    (hstate : state = .localDirty ∨ state = .offlineOnly) (hsum : sumsBody b.cid body = true)
    (hput : ∀ e, m.lookup (bindingID b) = some e → allowedPut e.state state = true) :
    Cache.admitLocal store raw body state = .ok (b, ⟨state, some body⟩) := by
  have hallowed :
    (store.lookup b).any (fun existing => !Cache.allowedPut existing.state state) = false := by
    rw [hs b (Cache.normalizeBinding_self hb), view]
    cases hl : m.lookup (bindingID b) with
    | none => rfl
    | some e =>
      have he := hput e hl
      cases hstate : e.state with
      | none => simp [Entry.shown, hstate]
      | some s => simpa [Entry.shown, hstate, allowedPut] using he
  simp only [Cache.admitLocal, ok_iff]
  exact ⟨b, hb, (), by rcases hstate with rfl | rfl <;> simp, (), by simp [hsum], (),
    by simp [hallowed], rfl⟩

omit [BindingHash] in
theorem fst_putLocal_aborted : (Cache.putLocal .aborted raw body state store).1 = store := by
  unfold Cache.putLocal
  split <;> rfl

variable (hinj : ∀ b b' : Binding, bindingID b = bindingID b' → b = b')

include hinj

theorem putLocal_of_change (hf : Represents f store) (hm : loaded f = .ok m) (hg : Collected m f g)
    (hc : Change m g (.putLocal now raw body state) h) :
    ∃ fault, Represents h (Cache.putLocal fault raw body state store).1 := by
  have hs := hf.collected hm hg
  have hsame : loaded g = .ok m := by rw [← hm, loaded, loaded, hg.metadata]
  cases hc with
  | quiet => exact ⟨.aborted, by rw [fst_putLocal_aborted]; exact hf.quiet hm hg⟩
  | rewritten => exact ⟨.aborted, by rw [fst_putLocal_aborted]; exact hs.withMetadata⟩
  | edited h => cases h
  | staged h =>
    cases h with
    | @staged _ _ b _ _ hb hstate hsum hput =>
    by_cases hnone : referenced m (bindingID b) = false
    · refine ⟨.aborted, ?_⟩
      rw [fst_putLocal_aborted]
      exact (hs.withBody hinj hnone).represents hsame
    · rw [Bool.not_eq_false] at hnone
      obtain ⟨e, hl, hpresent⟩ := (Option.any_eq_true _ _).mp hnone
      obtain ⟨s, he, -⟩ := (Option.any_eq_true _ _).mp (hput e hl)
      have hold : store.lookup b = some ⟨s, g.body (bindingID b)⟩ := by
        rw [hs b (Cache.normalizeBinding_self hb), view, hl]
        simp [Entry.shown, he, hpresent]
      have hnew :
        Shows m (g.withBody (bindingID b) (some body)) (store.insert b ⟨s, some body⟩) := by
        refine hs.insert (fun x hx => view_withBody_of_ne hinj hx) ?_
        simp [view, Files.withBody, hl, Entry.shown, he, hpresent]
      refine ⟨.staged, ?_⟩
      simp only [Cache.putLocal, admitLocal_of_shows hs hb hstate hsum hput, hold]
      exact hnew.represents hsame
  | put h =>
    cases h with
    | staged hb hstate hsum hput =>
    refine ⟨.committed, ?_⟩
    rw [Cache.putLocal, admitLocal_of_shows hs hb hstate hsum hput]
    exact hs.put hinj rfl
  | dropped h hnone =>
    cases h with
    | staged hb hstate hsum hput =>
    refine ⟨.aborted, ?_⟩
    rw [fst_putLocal_aborted]
    exact (hs.withBody hinj hnone).represents hsame
  | orphaned h hnone =>
    cases h with
    | staged hb hstate hsum hput =>
    refine ⟨.orphaned, ?_⟩
    rw [Cache.putLocal, admitLocal_of_shows hs hb hstate hsum hput]
    exact hs.put hinj rfl

/-- Whatever a call that puts a body leaves on the disk is what one of the faults
of the store leaves, and a call that returns has put it. -/
theorem putLocal_represents {o : Outcome Cache.CacheError Entry} (hf : Represents d.files store)
    (hr : Runs (putLocal now raw body state) d o d') :
    ∃ fault, Represents d'.files (Cache.putLocal fault raw body state store).1 ∧
      ∀ e, o = .done e → ∃ entry, (Cache.putLocal fault raw body state store).2 = .ok entry := by
  have hleaves : Leaves (putLocal now raw body state) _ _ d := leaves_putLocal
  cases o with
  | done e =>
    obtain ⟨m, g, id, entry, data, hm, hg, hputs, hfiles⟩ := hleaves.done hr
    cases hputs with
    | staged hb hstate hsum hput =>
    have hs := hf.collected hm hg
    refine ⟨.none, ?_⟩
    rw [Cache.putLocal, admitLocal_of_shows hs hb hstate hsum hput, hfiles]
    exact ⟨hs.put hinj rfl, fun _ _ => ⟨_, rfl⟩⟩
  | failed _ | crashed =>
    rcases hleaves.runs hr with hsame | ⟨m, g, hm, hg, hc⟩
    · refine ⟨.aborted, ?_, nofun⟩
      rw [hsame, fst_putLocal_aborted]
      exact hf
    · obtain ⟨fault, hfault⟩ := putLocal_of_change hinj hf hm hg hc
      exact ⟨fault, hfault, nofun⟩

omit [PayloadHash] in
theorem transition_of_edits {id : GoString} {entry : Entry} (hs : Shows m g store)
    (h : Edits m (.transition now raw next) id entry) : ∃ b new,
      Cache.admitTransition store raw next = .ok (b, new) ∧
      Represents (g.withMetadata (m.insert id entry)) (store.insert b new) := by
  cases h with
  | @moved _ _ b e _ hb hl hallowed =>
  obtain ⟨s, he, hallowed⟩ := (Option.any_eq_true _ _).mp hallowed
  have hold :
    store.lookup b = some ⟨s, if e.bodyPresent = true then g.body (bindingID b) else none⟩ := by
    rw [hs b (Cache.normalizeBinding_self hb), view, hl]
    simp [Entry.shown, he]
  refine ⟨b, ⟨next, if e.bodyPresent = true then g.body (bindingID b) else none⟩, ?_,
    hs.edit hinj rfl⟩
  simp only [Cache.admitTransition, ok_iff]
  exact ⟨b, hb, _, hold, (), by simp [hallowed], rfl⟩

omit hinj in
omit [BindingHash] [PayloadHash] in
theorem fst_transition_aborted : (Cache.transition .aborted raw next store).1 = store := by
  unfold Cache.transition
  split <;> rfl

theorem transition_of_change (hf : Represents f store) (hm : loaded f = .ok m)
    (hg : Collected m f g) (hc : Change m g (.transition now raw next) h) :
    ∃ fault, Represents h (Cache.transition fault raw next store).1 := by
  have hs := hf.collected hm hg
  cases hc with
  | quiet => exact ⟨.aborted, by rw [fst_transition_aborted]; exact hf.quiet hm hg⟩
  | rewritten => exact ⟨.aborted, by rw [fst_transition_aborted]; exact hs.withMetadata⟩
  | edited h =>
    obtain ⟨b, new, hadmit, hnew⟩ := transition_of_edits hinj hs h
    refine ⟨.committed, ?_⟩
    rw [Cache.transition, hadmit]
    exact hnew
  | staged h | put h | dropped h | orphaned h => cases h

theorem transition_represents {o : Outcome Cache.CacheError Entry} (hf : Represents d.files store)
    (hr : Runs (transition now raw next) d o d') :
    ∃ fault, Represents d'.files (Cache.transition fault raw next store).1 ∧
      ∀ e, o = .done e → ∃ entry, (Cache.transition fault raw next store).2 = .ok entry := by
  have hleaves : Leaves (transition now raw next) _ _ d := leaves_transition
  cases o with
  | done e =>
    obtain ⟨m, g, id, entry, hm, hg, hedit, hfiles⟩ := hleaves.done hr
    obtain ⟨b, new, hadmit, hnew⟩ := transition_of_edits hinj (hf.collected hm hg) hedit
    refine ⟨.none, ?_⟩
    rw [Cache.transition, hadmit, hfiles]
    exact ⟨hnew, fun _ _ => ⟨_, rfl⟩⟩
  | failed _ | crashed =>
    rcases hleaves.runs hr with hsame | ⟨m, g, hm, hg, hc⟩
    · refine ⟨.aborted, ?_, nofun⟩
      rw [hsame, fst_transition_aborted]
      exact hf
    · obtain ⟨fault, hfault⟩ := transition_of_change hinj hf hm hg hc
      exact ⟨fault, hfault, nofun⟩

omit hinj in
/-- A call that only reads leaves what the files show. -/
theorem Represents.read (hf : Represents f store) (hc : c.reads = true) (h : Changed c f g) :
    Represents g store := by
  rcases h with rfl | ⟨m, g', hm, hg, hchange⟩
  · exact hf
  cases hchange with
  | quiet => exact hf.quiet hm hg
  | rewritten => exact (hf.collected hm hg).withMetadata
  | edited h | staged h | put h | dropped h | orphaned h => cases h <;> cases hc
  | unlinked hb | removed hb => cases hc

omit [PayloadHash] in
theorem Held.binding_eq {limit : UInt64} {e : Entry} {data : List UInt8}
    (h : Held f b limit e data) : e.binding = b := by
  obtain ⟨m, hm, hl⟩ := h.entry
  exact hinj _ _ (entry_of_loaded hm hl).2

omit hinj in
theorem openVerified_of_held {limit : UInt64} {e : Entry} {data : List UInt8}
    (hf : Represents f store) (hb : normalizeBinding raw = .ok b) (h : Held f b limit e data)
    (hsum : sumsBody b.cid data = true) :
    ∃ entry, e.state = some entry.state ∧ Cache.openVerified store raw limit.toNat =
      .ok (entry, data) := by
  obtain ⟨m, hm, hl⟩ := h.entry
  obtain ⟨s, he, hlocal⟩ := (Option.any_eq_true _ _).mp h.state
  have hold : store.lookup b = some ⟨s, some data⟩ := by
    rw [hf m hm b (Cache.normalizeBinding_self hb), view, hl]
    simp [Entry.shown, he, h.present, h.body]
  refine ⟨⟨s, some data⟩, he, ?_⟩
  have hsize := h.size
  simp only [Cache.openVerified, Cache.openBoundedLocalBody, ok_iff, not_or, not_lt,
    Bool.not_eq_false]
  exact ⟨b, hb, _, hold, data, ⟨(), hlocal, data, rfl, (), hsize, rfl⟩, (), hsum, rfl⟩

theorem verifyLocal_represents {o : Outcome Cache.CacheError Entry} {limit : UInt64}
    (hf : Represents d.files store)
    (hr : Runs (verifyLocal raw limit) d o d') : Represents d'.files store ∧
      ∀ e, o = .done e → ∃ entry, e.state = some entry.state ∧
        Cache.verifyLocal store raw limit.toNat = .ok entry := by
  refine ⟨hf.read rfl (leaves_verifyLocal.runs hr), ?_⟩
  rintro e rfl
  obtain ⟨b, data, hb, hheld, hsum⟩ := leaves_verifyLocal.done hr
  rw [hheld.binding_eq hinj] at hsum
  obtain ⟨entry, he, hopen⟩ := openVerified_of_held hf hb hheld hsum
  exact ⟨entry, he, by rw [Cache.verifyLocal, hopen]; rfl⟩

omit hinj in
theorem readLocalBounded_represents {o : Outcome Cache.CacheError (List UInt8 × Entry)}
    {limit : UInt64}
    (hf : Represents d.files store) (hr : Runs (readLocalBounded raw limit) d o d') :
    Represents d'.files store ∧
      ∀ body e, o = .done (body, e) → Cache.readLocalBounded store raw limit.toNat = .ok body := by
  refine ⟨hf.read rfl (leaves_readLocalBounded.runs hr), ?_⟩
  rintro body e rfl
  obtain ⟨b, hb, hheld, hsum⟩ := leaves_readLocalBounded.done hr
  obtain ⟨entry, -, hopen⟩ := openVerified_of_held hf hb hheld hsum
  rw [Cache.readLocalBounded, hopen]
  rfl

omit hinj in
theorem inspect_represents {o : Outcome Cache.CacheError Entry} (hf : Represents d.files store)
    (hr : Runs (inspect raw) d o d') : Represents d'.files store ∧
      ∀ e, o = .done e → ∃ entry, e.state = some entry.state ∧ Cache.inspect store raw =
        .ok entry := by
  refine ⟨hf.read rfl (leaves_inspect.runs hr), ?_⟩
  rintro e rfl
  obtain ⟨b, m, hb, hm, hl⟩ := leaves_inspect.done hr
  obtain ⟨s, he⟩ := Option.ne_none_iff_exists'.mp (entry_of_loaded hm hl).1
  refine ⟨⟨s, if e.bodyPresent = true then d.files.body (bindingID b) else none⟩, he, ?_⟩
  simp only [Cache.inspect, ok_iff]
  refine ⟨b, hb, ?_⟩
  rw [hf m hm b (Cache.normalizeBinding_self hb), view, hl]
  simp [Entry.shown, he]

end calls

end MaltClient.PayloadCache
