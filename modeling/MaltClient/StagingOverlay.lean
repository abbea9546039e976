import MaltClient.StagingPaths

/-! The overlay lookup and listing of the staging service, against the file
system that the journaled operations produce from the base. -/

namespace MaltClient.Staging

open GoText Checked
open Journal (Operation)
open Planner (Means)
open StagedPath (PathName)
open PathFs (Fs Entry Op Found Miss)

def kindOf {κ : Type} : Entry κ → FileKind
  | .dir => .dir
  | .file _ => .file

theorem kindOf_eq_dir {κ : Type} {e : Entry κ} : kindOf e = .dir ↔ e = .dir := by
  cases e <;> simp [kindOf]

variable [CidFormat] {κ : Type}

/-- The verified base serves a file system: it finds what is there, it does not
find what is absent from a directory, and it lists the names of a directory. -/
structure Serves (base : Base) (view : View) (F : Fs GoString κ) : Prop where
  wellFormed : PathFs.WellFormed F
  names : ∀ p, F p ≠ none → ∀ n ∈ p, PathName n
  found : ∀ p e, F p = some e → ∃ info, base.stat view (join p) = .ok info ∧ info.kind = kindOf e
  missing : ∀ p, (∀ n ∈ p, PathName n) → F p = none → ∃ e, base.stat view (join p) = .error e
  absent : ∀ p n, (∀ m ∈ p ++ [n], PathName m) → F p = some .dir → F (p ++ [n]) = none →
    base.stat view (join (p ++ [n])) = .error .notFound
  listed : ∀ p, F p = some .dir → ∃ entries, base.readDir view (join p) = .ok entries ∧
    ∀ n, n ∈ entries.map DirEntry.name ↔ F (p ++ [n]) ≠ none

/-- The node that a lookup returns shows an entry: the same kind and, for a
file, the payload of the write that made it or the base file it comes from. -/
def Shows (base : Fs GoString κ) (ofPayload : Cid → κ) (node : ResolvedNode) : Entry κ → Prop
  | .dir => node.info.kind = .dir
  | .file k => node.info.kind = .file ∧
    ((node.isLocal = true ∧ ∃ b c, node.binding = some b ∧ b.cid = some c ∧ k = ofPayload c) ∨
      (node.isLocal = false ∧ ∃ r, node.remotePath = join r ∧ base r = some (.file k)))

theorem Shows.kind {base : Fs GoString κ} {ofPayload : Cid → κ} {node : ResolvedNode} {e : Entry κ}
    (h : Shows base ofPayload node e) : node.info.kind = kindOf e := by
  cases e with
  | dir => exact h
  | file k => exact h.1

variable [PayloadHash] {ofPayload : Cid → κ}

def BodiesVerified (service : Service) (cache : Cache.Store) (L : List Operation) : Prop :=
  ∀ o ∈ L, o.kind = .write → ∃ e, Cache.verifyLocal cache (bindingFromOperation o)
    service.stagedFileLimit = .ok e

section

variable {service : Service} {cache : Cache.Store} {view : View}

/-- How the outcome of the service's loop goes with the outcome of the lookup
through the operations that the journal stands for. -/
inductive Agrees (ofPayload : Cid → κ) (service : Service) (cache : Cache.Store) (view : View)
    (canonical : GoString) : Except Miss (Found GoString κ) → Except FsError ResolvedNode → Prop
  | notFound : Agrees ofPayload service cache view canonical (.error .notFound) (.error .notFound)
  | notDirectory : Agrees ofPayload service cache view canonical (.error .notDirectory)
      (.error .notDirectory)
  | written (c : Cid) (b : Cache.Binding) (node : ResolvedNode) (kind : node.info.kind = .file)
      (isLocal : node.isLocal = true) (binding : node.binding = some b) (cid : b.cid = some c) :
      Agrees ofPayload service cache view canonical (.ok (.written (ofPayload c))) (.ok node)
  | made (k : Nat) (node : ResolvedNode) (kind : node.info.kind = .dir)
      (isLocal : node.isLocal = true) (createdAt : node.createdAt = k) :
        Agrees ofPayload service cache view canonical (.ok (.made k)) (.ok node)
  | based (r : List GoString) (names : ∀ n ∈ r, PathName n) :
      Agrees ofPayload service cache view canonical (.ok (.based r))
        (resolveBack service cache view canonical [] (join r))

theorem resolveBack_agrees {L : List Operation} {ops : List (Op GoString κ)}
    (h : List.Forall₂ (Means ofPayload) L ops) (hb : BodiesVerified service cache L)
    (canonical : GoString) {q : List GoString} (hq : ∀ n ∈ q, PathName n) :
    Agrees ofPayload service cache view canonical (PathFs.resolve ops q)
      (resolveBack service cache view canonical L (join q)) := by
  induction h generalizing q with
  | nil => exact .based q hq
  | @cons o op L ops hm hrest ih =>
    have hpl : ∀ n ∈ q, Plain n := fun n hn => (hq n hn).name.plain
    have hb' : BodiesVerified service cache L := fun o' ho' => hb o' (List.mem_cons_of_mem _ ho')
    have hlen : L.length = ops.length := hrest.length_eq
    cases hm with
    | @write p c kind path names payload raw =>
      simp only [resolveBack, PathFs.resolve, kind, path, join_inj hpl names.plain,
        isStrictDescendant_join hpl names.plain names.ne_nil]
      by_cases he : q = p
      · obtain ⟨entry, hentry⟩ := hb o (by simp) kind
        simp only [he, if_true, hentry, Except.mapError, bind, Except.bind, pure, Except.pure]
        exact .written c (bindingFromOperation o) _ rfl rfl rfl payload
      · by_cases hpre : p <+: q
        · simp only [he, hpre, ne_eq, not_false_eq_true, and_self, if_true, if_false]
          exact .notDirectory
        · simp only [he, hpre, false_and, if_false]
          exact ih hb' hq
    | @mkdir p kind path names =>
      simp only [resolveBack, PathFs.resolve, kind, path, join_inj hpl names.plain,
        isStrictDescendant_join hpl names.plain names.ne_nil, hlen]
      by_cases he : q = p
      · simp only [he, if_true]
        exact .made _ _ rfl rfl rfl
      · by_cases hpre : p <+: q
        · simp only [he, hpre, ne_eq, not_false_eq_true, and_self, if_true, if_false]
          exact .notFound
        · simp only [he, hpre, false_and, if_false]
          exact ih hb' hq
    | @unlink p kind path names =>
      simp only [resolveBack, PathFs.resolve, kind, path,
        isWithin_join hpl names.plain names.ne_nil]
      split_ifs with hpre
      · exact .notFound
      · exact ih hb' hq
    | @rename s d kind path destination names names' =>
      simp only [resolveBack, PathFs.resolve, kind, path, destination,
        isWithin_join hpl names'.plain names'.ne_nil, isWithin_join hpl names.plain names.ne_nil]
      split_ifs with hd hs
      · obtain ⟨r, rfl⟩ := hd
        have hmove : replacePrefix (join (d ++ r)) (join d) (join s) = join (s ++ r) :=
          replacePrefix_join names'.plain (fun n hn => hpl n (List.mem_append_right _ hn))
            names.plain names'.ne_nil
        have hnames : ∀ n ∈ s ++ r, PathName n := fun n hn =>
          (List.mem_append.mp hn).elim (fun hs => (names.staged n hs).pathName) fun hr =>
            hq n (List.mem_append_right _ hr)
        rw [hmove, List.drop_left]
        exact ih hb' hnames
      · exact .notFound
      · exact ih hb' hq

/-- A list of journaled operations that stands for operations made on the file
system of the base, each one enabled when it was made. -/
structure Overlay (service : Service) (cache : Cache.Store) (view : View) (F : Fs GoString κ)
    (ofPayload : Cid → κ) (L : List Operation) (ops : List (Op GoString κ)) : Prop where
  serves : Serves service.base view F
  means : List.Forall₂ (Means ofPayload) L ops
  valid : PathFs.Valid F ops.reverse
  bodies : BodiesVerified service cache L

def replayed (F : Fs GoString κ) (ops : List (Op GoString κ)) : Fs GoString κ :=
  PathFs.after F ops.reverse

variable {F : Fs GoString κ} {L : List Operation} {ops : List (Op GoString κ)}

variable {p r : List GoString} {canonical : GoString}

theorem Overlay.agrees (h : Overlay service cache view F ofPayload L ops)
    (hp : ∀ n ∈ p, PathName n) :
    Agrees ofPayload service cache view (join p) (PathFs.resolve ops.reverse p)
      (resolveAt service cache view L L.length (join p)) := by
  rw [resolveAt, List.take_length]
  exact resolveBack_agrees (List.forall₂_reverse_iff.mpr h.means)
    (fun o ho => h.bodies o (List.mem_reverse.mp ho)) (join p) hp

theorem Overlay.entry (h : Overlay service cache view F ofPayload L ops) (p : List GoString) :
    Found.entry F (PathFs.resolve ops.reverse p) = replayed F ops p :=
  PathFs.entry_resolve h.serves.wellFormed h.valid p

theorem stat_based {info : Info} (h : service.base.stat view (join r) = .ok info) :
    resolveBack service cache view canonical [] (join r) =
      .ok { info := { info with path := canonical, name := baseName canonical }
            isLocal := false, remotePath := join r, binding := none, createdAt := 0 } := by
  simp [resolveBack, h, bind, Except.bind, pure, Except.pure]

theorem stat_based_error {e : FsError} (h : service.base.stat view (join r) = .error e) :
    resolveBack service cache view canonical [] (join r) = .error e := by
  simp [resolveBack, h, bind, Except.bind]

theorem Overlay.resolveAt_none (h : Overlay service cache view F ofPayload L ops)
    (hp : ∀ n ∈ p, PathName n) (hnone : replayed F ops p = none) :
    ∃ e, resolveAt service cache view L L.length (join p) = .error e := by
  have ha := h.agrees hp
  have he := h.entry p
  rw [hnone] at he
  generalize PathFs.resolve ops.reverse p = x at ha he
  generalize resolveAt service cache view L L.length (join p) = y at ha
  cases ha with
  | notFound => exact ⟨_, rfl⟩
  | notDirectory => exact ⟨_, rfl⟩
  | written c b node kind isLocal binding cid => simp [Found.entry] at he
  | made k node kind isLocal createdAt => simp [Found.entry] at he
  | based r names =>
    obtain ⟨e, hstat⟩ := h.serves.missing r names he
    exact ⟨e, stat_based_error hstat⟩

theorem Overlay.resolveAt_some (h : Overlay service cache view F ofPayload L ops)
    (hp : ∀ n ∈ p, PathName n) {entry : Entry κ} (hsome : replayed F ops p = some entry) :
    ∃ node, resolveAt service cache view L L.length (join p) = .ok node ∧
      Shows F ofPayload node entry := by
  have ha := h.agrees hp
  have he := h.entry p
  rw [hsome] at he
  generalize PathFs.resolve ops.reverse p = x at ha he
  generalize resolveAt service cache view L L.length (join p) = y at ha
  cases ha with
  | notFound => simp [Found.entry] at he
  | notDirectory => simp [Found.entry] at he
  | written c b node kind isLocal binding cid =>
    cases he
    exact ⟨node, rfl, kind, .inl ⟨isLocal, b, c, binding, cid, rfl⟩⟩
  | made k node kind isLocal createdAt =>
    cases he
    exact ⟨node, rfl, kind⟩
  | based r names =>
    have hr : F r = some entry := he
    obtain ⟨info, hstat, hkind⟩ := h.serves.found r entry hr
    refine ⟨_, stat_based hstat, ?_⟩
    cases entry with
    | dir => exact hkind
    | file k => exact ⟨hkind, .inr ⟨rfl, r, rfl, hr⟩⟩

theorem Overlay.resolveAt_absent (h : Overlay service cache view F ofPayload L ops)
    {d : List GoString}
    {n : GoString} (hd : ∀ m ∈ d ++ [n], PathName m) (hdir : replayed F ops d = some .dir)
    (hnone : replayed F ops (d ++ [n]) = none) :
    resolveAt service cache view L L.length (join (d ++ [n])) = .error .notFound := by
  have ha := h.agrees hd
  have he := h.entry (d ++ [n])
  have hc := PathFs.resolve_child h.serves.wellFormed h.valid n hdir
  rw [hnone] at he
  generalize PathFs.resolve ops.reverse (d ++ [n]) = x at ha he hc
  generalize resolveAt service cache view L L.length (join (d ++ [n])) = y at ha
  cases ha with
  | notFound => rfl
  | notDirectory => simp at hc
  | written c b node kind isLocal binding cid => simp [Found.entry] at he
  | made k node kind isLocal createdAt => simp [Found.entry] at he
  | based r names =>
    have hr : F r = none := he
    obtain ⟨q, rfl, hq⟩ := hc.resolve_left fun hne => hne hr
    exact stat_based_error (h.serves.absent q n names hq hr)

theorem pathName_of_replayed (hnames : ∀ p, F p ≠ none → ∀ n ∈ p, PathName n)
    (hm : List.Forall₂ (Means ofPayload) L ops) (hp : replayed F ops p ≠ none) :
    ∀ n ∈ p, PathName n := by
  unfold replayed at hp
  have hm' := List.forall₂_reverse_iff.mpr hm
  revert hm' hp
  generalize L.reverse = L'
  generalize ops.reverse = ops'
  intro hp hm'
  induction hm' generalizing p with
  | nil => exact hnames p hp
  | @cons o op L ops hm _ ih =>
    cases hm with
    | @write q c kind path names payload raw =>
      by_cases he : p = q
      · exact fun n hn => (names.staged n (he ▸ hn)).pathName
      · exact ih (by simpa [PathFs.after, PathFs.apply, he] using hp)
    | @mkdir q kind path names =>
      by_cases he : p = q
      · exact fun n hn => (names.staged n (he ▸ hn)).pathName
      · exact ih (by simpa [PathFs.after, PathFs.apply, he] using hp)
    | @unlink q kind path names =>
      by_cases he : p = q
      · simp [PathFs.after, PathFs.apply, he] at hp
      · exact ih (by simpa [PathFs.after, PathFs.apply, he] using hp)
    | @rename s d kind path destination names names' =>
      simp only [PathFs.after, PathFs.apply] at hp
      by_cases hd : d <+: p
      · rw [if_pos hd] at hp
        have hmoved := ih hp
        obtain ⟨r, rfl⟩ := hd
        rw [List.drop_left] at hmoved
        exact fun n hn => (List.mem_append.mp hn).elim (fun h => (names'.staged n h).pathName)
          fun h =>
          hmoved n (List.mem_append_right _ h)
      · rw [if_neg hd] at hp
        by_cases hs : s <+: p
        · simp [hs] at hp
        · rw [if_neg hs] at hp
          exact ih hp

end

end MaltClient.Staging
