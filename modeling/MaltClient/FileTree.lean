import MaltClient.AssocMap

/-! Trees of directories, files and links, and the walk of a path through one:
a link is followed from the directory that holds it, and the parent of a
directory is taken where the walk stands. -/

namespace FileTree

open AssocMap

inductive Object (μ β τ : Type) where
  | dir (mode : μ)
  | file (mode : μ) (body : β)
  | link (mode : μ) (target : τ)
  | special (mode : μ)
  deriving DecidableEq, Repr

variable {ν μ β τ : Type}

def Object.isDir : Object μ β τ → Bool
  | .dir _ => true
  | _ => false

def Object.withMode (mode : μ) : Object μ β τ → Object μ β τ
  | .dir _ => .dir mode
  | .file _ body => .file mode body
  | .link _ target => .link mode target
  | .special _ => .special mode

section tree

variable [DecidableEq ν]

abbrev Objects (ν μ β τ : Type) := AList fun _ : List ν => Object μ β τ

/-- The root is a directory without an object of its own. -/
def Holds (objects : Objects ν μ β τ) (p : List ν) : Prop :=
  p = [] ∨ ∃ o, objects.lookup p = some o ∧ o.isDir = true

instance (objects : Objects ν μ β τ) (p : List ν) : Decidable (Holds objects p) :=
  match h : objects.lookup p with
  | none => decidable_of_iff (p = []) (by simp [Holds, h])
  | some o => decidable_of_iff (p = [] ∨ o.isDir = true) (by simp [Holds, h])

structure Tree (ν μ β τ : Type) [DecidableEq ν] where
  objects : Objects ν μ β τ
  root : objects.lookup [] = none
  parents : ∀ p n o, objects.lookup (p ++ [n]) = some o → Holds objects p

def Tree.lookup (t : Tree ν μ β τ) (p : List ν) : Option (Object μ β τ) := t.objects.lookup p

def empty : Tree ν μ β τ := ⟨∅, by simp, by simp⟩

@[simp] theorem lookup_empty (p : List ν) :
    (empty : Tree ν μ β τ).lookup p = none := by simp [empty, Tree.lookup]

variable {t t' : Tree ν μ β τ} {p : List ν} {o : Object μ β τ}

theorem Holds.insert {objects : Objects ν μ β τ} {p q : List ν} (o : Object μ β τ)
    (h : Holds objects p) (hq : objects.lookup q = none) : Holds (objects.insert q o) p := by
  refine h.imp_right fun h => ?_
  obtain ⟨d, hd, hdir⟩ := h
  refine ⟨d, ?_, hdir⟩
  rw [lookup_insert_eq, if_neg, hd]
  intro he
  rw [he, hq] at hd
  cases hd

/-- A new object in an existing directory. -/
def Tree.create (t : Tree ν μ β τ) (p : List ν) (o : Object μ β τ) : Option (Tree ν μ β τ) :=
  if h : p ≠ [] ∧ Holds t.objects p.dropLast ∧ t.objects.lookup p = none then
    some
      { objects := t.objects.insert p o
        root := by rw [lookup_insert_eq, if_neg (Ne.symm h.1), t.root]
        parents := by
          intro q n o' hl
          refine Holds.insert o ?_ h.2.2
          rw [lookup_insert_eq] at hl
          split_ifs at hl with heq
          · have hparent : p.dropLast = q := by rw [← heq, List.dropLast_concat]
            exact hparent ▸ h.2.1
          · exact t.parents q n o' hl }
  else none

theorem create_eq_some (h : t.create p o = some t') (q : List ν) :
    t.lookup p = none ∧ t'.lookup q = if q = p then some o else t.lookup q := by
  unfold Tree.create at h
  split_ifs at h with hp
  rw [← Option.some.inj h]
  exact ⟨hp.2.2, lookup_insert_eq q p o t.objects⟩

theorem exists_create (hne : p ≠ []) (hparent : Holds t.objects p.dropLast)
    (hnew : t.lookup p = none) : ∃ t', t.create p o = some t' := by
  unfold Tree.create
  rw [dif_pos ⟨hne, hparent, hnew⟩]
  exact ⟨_, rfl⟩

theorem isDir_withMode (mode : μ) (o : Object μ β τ) : (o.withMode mode).isDir = o.isDir := by
  cases o <;> rfl

theorem Holds.withMode {objects : Objects ν μ β τ} {p q : List ν} (mode : μ) (h : Holds objects p)
    (hq : objects.lookup q = some o) : Holds (objects.insert q (o.withMode mode)) p := by
  refine h.imp_right fun h => ?_
  obtain ⟨d, hd, hdir⟩ := h
  by_cases hp : p = q
  · subst hp
    obtain rfl := Option.some.inj (hq.symm.trans hd)
    exact ⟨_, by rw [lookup_insert_eq, if_pos rfl], by rw [isDir_withMode, hdir]⟩
  · exact ⟨d, by rw [lookup_insert_eq, if_neg hp, hd], hdir⟩

def Tree.chmod (t : Tree ν μ β τ) (p : List ν) (mode : μ) : Tree ν μ β τ :=
  match h : t.objects.lookup p with
  | none => t
  | some o =>
    { objects := t.objects.insert p (o.withMode mode)
      root := by
        rw [lookup_insert_eq, if_neg, t.root]
        intro he
        rw [← he, t.root] at h
        cases h
      parents := by
        intro q n o' hl
        refine Holds.withMode mode ?_ h
        rw [lookup_insert_eq] at hl
        split_ifs at hl with heq
        · exact t.parents q n o (heq ▸ h)
        · exact t.parents q n o' hl }

theorem lookup_chmod (t : Tree ν μ β τ) (p q : List ν) (mode : μ) :
    (t.chmod p mode).lookup q = if q = p then (t.lookup q).map (Object.withMode mode)
      else t.lookup q := by
  unfold Tree.chmod
  split
  next h =>
    split_ifs with hq
    · subst hq
      have hnone : t.lookup q = none := h
      rw [hnone]
      rfl
    · rfl
  next o h =>
    have hsome : t.lookup p = some o := h
    have hinsert := lookup_insert_eq q p (o.withMode mode) t.objects
    split_ifs with hq
    · rw [if_pos hq] at hinsert
      rw [hq, hsome]
      exact hq ▸ hinsert
    · rw [if_neg hq] at hinsert
      exact hinsert

theorem Tree.holds_of_append (t : Tree ν μ β τ) {p r : List ν} (hr : r ≠ [])
    (h : t.lookup (p ++ r) = some o) : Holds t.objects p := by
  induction r using List.reverseRecOn generalizing o with
  | nil => exact absurd rfl hr
  | append_singleton r n ih =>
    rw [← List.append_assoc] at h
    have habove := t.parents (p ++ r) n o h
    by_cases hre : r = []
    · simpa [hre] using habove
    · rcases habove with hnil | ⟨d, hd, -⟩
      · exact .inl (List.append_eq_nil_iff.mp hnil).1
      · exact ih hre hd

end tree

section walk

inductive Component (ν : Type) where
  | stay
  | up
  | name (n : ν)
  deriving DecidableEq, Repr

/-- What a walk finds under a name: a directory, a link, or its end. -/
inductive Way (τ : Type) where
  | into
  | along (target : τ)
  | blocked
  deriving DecidableEq, Repr

def Object.way : Object μ β τ → Way τ
  | .dir _ => .into
  | .link _ target => .along target
  | _ => .blocked

/-- A walk stands in a directory of the tree with components still to go, or it
has left the tree. -/
inductive Walk (ν : Type) where
  | inside (place : List ν) (rest : List (Component ν))
  | outside
  deriving DecidableEq, Repr

variable (way : List ν → Way τ) (follow : τ → Option (List (Component ν)))

/-- One step, if the walk has not ended. A target that is not relative is
nowhere in the tree. -/
def step : Walk ν → Option (Walk ν)
  | .outside => none
  | .inside _ [] => none
  | .inside p (.stay :: rest) => some (.inside p rest)
  | .inside p (.up :: rest) => some (if p = [] then .outside else .inside p.dropLast rest)
  | .inside p (.name n :: rest) =>
    match way (p ++ [n]) with
    | .into => some (.inside (p ++ [n]) rest)
    | .along target => some ((follow target).elim .outside fun cs => .inside p (cs ++ rest))
    | .blocked => none

abbrev Reaches : Walk ν → Walk ν → Prop :=
  Relation.ReflTransGen fun w w' => step way follow w = some w'

/-- A number of steps, or fewer if the walk ends. -/
def advance : Nat → Walk ν → Walk ν
  | 0, w => w
  | n + 1, w => (step way follow w).elim w (advance n)

/-- The walk never leaves the tree. -/
def Safe (w : Walk ν) : Prop := ¬ Reaches way follow w .outside

/-- Components lead from a directory to another. -/
inductive Leads : List ν → List (Component ν) → List ν → Prop
  | done (p : List ν) : Leads p [] p
  | stay {p q : List ν} {cs : List (Component ν)} : Leads p cs q → Leads p (.stay :: cs) q
  | up {p q : List ν} {cs : List (Component ν)} :
      p ≠ [] → Leads p.dropLast cs q → Leads p (.up :: cs) q
  | into {p q : List ν} {n : ν} {cs : List (Component ν)} :
    way (p ++ [n]) = .into → Leads (p ++ [n]) cs q → Leads p (.name n :: cs) q
  | along {p q r : List ν} {n : ν} {target : τ} {ds cs : List (Component ν)} :
    way (p ++ [n]) = .along target → follow target = some ds → Leads p ds r → Leads r cs q →
      Leads p (.name n :: cs) q

/-- There is a parent to take at the root. -/
def Turns (p : List ν) (cs : List (Component ν)) : Prop :=
  ∃ pre post, cs = pre ++ .up :: post ∧ Leads way follow p pre []

/-- Some link has a target with a parent to take at the root, or one that is not
relative. -/
def LinkTurns : Prop :=
  ∃ p n target, way (p ++ [n]) = .along target ∧ ∀ cs, follow target = some cs →
    Turns way follow p cs

/-- There is a parent to take at the root after a link has been followed. -/
def TurnsPastLink (p : List ν) (cs : List (Component ν)) : Prop :=
  ∃ pre n mid post r target, cs = pre ++ .name n :: mid ++ .up :: post ∧ Leads way follow p pre r ∧
    way (r ++ [n]) = .along target ∧ Leads way follow p (pre ++ .name n :: mid) []

variable {way follow} {w : Walk ν} {p q : List ν} {cs rest : List (Component ν)}

theorem reaches_advance (k : Nat) (w : Walk ν) : Reaches way follow w (advance way follow k w) := by
  induction k generalizing w with
  | zero => exact .refl
  | succ k ih =>
    rw [advance]
    cases hstep : step way follow w with
    | none => exact .refl
    | some w' => exact .head hstep (ih w')

theorem exists_advance (h : Reaches way follow w .outside) :
    ∃ k, advance way follow k w = .outside := by
  induction h using Relation.ReflTransGen.head_induction_on with
  | refl => exact ⟨0, rfl⟩
  | head hstep _ ih =>
    obtain ⟨k, hk⟩ := ih
    exact ⟨k + 1, by rw [advance, hstep]; exact hk⟩

theorem Leads.reaches (h : Leads way follow p cs q) (rest : List (Component ν)) :
    Reaches way follow (.inside p (cs ++ rest)) (.inside q rest) := by
  induction h generalizing rest with
  | done p => exact .refl
  | stay _ ih => exact .head rfl (ih rest)
  | up hp _ ih => exact .head (by simp [step, hp]) (ih rest)
  | into hway _ ih => exact .head (by simp [step, hway]) (ih rest)
  | along hway hfollow _ _ ih ih' =>
    exact .head (by simp [step, hway, hfollow]) ((ih _).trans (ih' rest))

theorem Turns.cons {c : Component ν} {r : List ν} (h : Turns way follow r cs)
    (hlead : ∀ {pre}, Leads way follow r pre [] → Leads way follow p (c :: pre) []) :
    Turns way follow p (c :: cs) := by
  obtain ⟨pre, post, rfl, hpre⟩ := h
  exact ⟨c :: pre, post, rfl, hlead hpre⟩

/-- A walk that leaves the tree takes a parent at the root in the target of some
link, or in its own first part, or it has walked that part. -/
theorem turns_of_advance {k : Nat} (h : advance way follow k (.inside p (cs ++ rest)) = .outside) :
    LinkTurns way follow ∨ Turns way follow p cs ∨
      ∃ q j, j ≤ k ∧ Leads way follow p cs q ∧ advance way follow j (.inside q rest) =
        .outside := by
  induction k using Nat.strong_induction_on generalizing p cs rest with
  | h k ih =>
    cases cs with
    | nil => exact .inr (.inr ⟨p, k, le_rfl, .done p, h⟩)
    | cons c cs =>
      cases k with
      | zero => cases h
      | succ k =>
        -- what a step has left is walked in fewer
        have hgo {r : List ν} {j : Nat} (hj : j ≤ k)
            (hlead : ∀ {pre q}, Leads way follow r pre q → Leads way follow p (c :: pre) q)
            (h : advance way follow j (.inside r (cs ++ rest)) = .outside) :
            LinkTurns way follow ∨ Turns way follow p (c :: cs) ∨ ∃ q i, i ≤ k + 1 ∧
              Leads way follow p (c :: cs) q ∧
              advance way follow i (.inside q rest) = .outside := by
          refine (ih j (by omega) h).imp_right (Or.imp (fun hturns => hturns.cons hlead) ?_)
          rintro ⟨q, i, hi, hq, hout⟩
          exact ⟨q, i, by omega, hlead hq, hout⟩
        cases c with
        | stay => exact hgo le_rfl .stay h
        | up =>
          by_cases hp : p = []
          · exact .inr (.inl ⟨[], cs, rfl, hp ▸ .done p⟩)
          · simp only [List.cons_append, advance, step, if_neg hp, Option.elim_some] at h
            exact hgo le_rfl (.up hp) h
        | name n =>
          cases hway : way (p ++ [n]) with
          | blocked =>
            simp only [List.cons_append, advance, step, hway, Option.elim_none] at h
            cases h
          | into =>
            simp only [List.cons_append, advance, step, hway, Option.elim_some] at h
            exact hgo le_rfl (.into hway) h
          | along target =>
            cases hfollow : follow target with
            | none =>
              exact .inl ⟨p, n, target, hway, fun ds hds => by rw [hfollow] at hds; cases hds⟩
            | some ds =>
              simp only [List.cons_append, advance, step, hway, hfollow, Option.elim_some] at h
              rcases ih k (by omega) h with hlink | hturns | ⟨r, j, hj, hr, hout⟩
              · exact .inl hlink
              · exact .inl ⟨p, n, target, hway, fun ds' hds =>
                  Option.some.inj (hfollow.symm.trans hds) ▸ hturns⟩
              · exact hgo hj (.along hway hfollow hr) hout

/-- Where components lead by their spelling alone. -/
def lexical : List ν → List (Component ν) → Option (List ν)
  | p, [] => some p
  | p, .stay :: cs => lexical p cs
  | p, .up :: cs => if p = [] then none else lexical p.dropLast cs
  | p, .name n :: cs => lexical (p ++ [n]) cs

theorem Leads.lexical_or_link (h : Leads way follow p cs q) : lexical p cs = some q ∨
    ∃ pre n mid r target, cs = pre ++ .name n :: mid ∧ Leads way follow p pre r ∧ way (r ++ [n]) =
      .along target := by
  induction h with
  | done p => exact .inl rfl
  | stay _ ih =>
    refine ih.imp_right ?_
    rintro ⟨pre, n, mid, r, target, rfl, hpre, hway⟩
    exact ⟨.stay :: pre, n, mid, r, target, rfl, .stay hpre, hway⟩
  | up hp _ ih =>
    refine ih.imp (fun h => by rw [lexical, if_neg hp, h]) ?_
    rintro ⟨pre, n, mid, r, target, rfl, hpre, hway⟩
    exact ⟨.up :: pre, n, mid, r, target, rfl, .up hp hpre, hway⟩
  | into hinto _ ih =>
    refine ih.imp_right ?_
    rintro ⟨pre, n, mid, r, target, rfl, hpre, hway⟩
    exact ⟨_ :: pre, n, mid, r, target, rfl, .into hinto hpre, hway⟩
  | along hway _ _ _ _ _ => exact .inr ⟨[], _, _, _, _, rfl, .done _, hway⟩

theorem Turns.past_link (h : Turns way follow p cs)
    (hlexical : ∀ pre post, cs = pre ++ .up :: post → lexical p pre ≠ some []) :
    TurnsPastLink way follow p cs := by
  obtain ⟨pre, post, rfl, hpre⟩ := h
  obtain ⟨first, n, mid, r, target, rfl, hfirst, hway⟩ := hpre.lexical_or_link.resolve_left
    (hlexical pre post rfl)
  exact ⟨first, n, mid, post, r, target, by simp, hfirst, hway, hpre⟩

theorem TurnsPastLink.turns (h : TurnsPastLink way follow p cs) : Turns way follow p cs := by
  obtain ⟨pre, n, mid, post, r, target, rfl, -, -, hlead⟩ := h
  exact ⟨_, post, rfl, hlead⟩

end walk

section names

variable [DecidableEq ν] {t t' : Tree ν μ β τ} {o : Object μ β τ} {p : List ν}
  {follow : τ → Option (List (Component ν))}

def Tree.way (t : Tree ν μ β τ) : List ν → Way τ
  | [] => .into
  | n :: p => (t.lookup (n :: p)).elim .blocked Object.way

theorem way_of_ne_nil (t : Tree ν μ β τ) (hp : p ≠ []) :
    t.way p = (t.lookup p).elim .blocked Object.way := by
  cases p with
  | nil => exact absurd rfl hp
  | cons n p => rfl

theorem way_create (hp : p ≠ []) (h : t.create p o = some t') (q : List ν) :
    t'.way q = if q = p then o.way else t.way q := by
  cases q with
  | nil => rw [if_neg (Ne.symm hp)]; rfl
  | cons n q =>
    rw [Tree.way, (create_eq_some h _).2]
    split_ifs <;> rfl

theorem way_chmod (t : Tree ν μ β τ) (p q : List ν) (mode : μ) :
    (t.chmod p mode).way q = t.way q := by
  cases q with
  | nil => rfl
  | cons n q =>
    rw [Tree.way, lookup_chmod, Tree.way]
    split_ifs with hq
    · cases t.lookup (n :: q) with
      | none => rfl
      | some o => cases o <;> rfl
    · rfl

theorem way_eq_into (h : Holds t.objects p) : t.way p = .into := by
  by_cases hp : p = []
  · rw [hp]
    rfl
  obtain ⟨o, hl, hdir⟩ := h.resolve_left hp
  rw [way_of_ne_nil t hp, Tree.lookup, hl]
  cases o with
  | dir mode => rfl
  | file mode body => cases hdir
  | link mode target => cases hdir
  | special mode => cases hdir

theorem holds_of_along {n : ν} {target : τ} (h : t.way (p ++ [n]) = .along target) :
    Holds t.objects p := by
  rw [way_of_ne_nil t (by simp)] at h
  cases hl : t.lookup (p ++ [n]) with
  | none =>
    rw [hl] at h
    cases h
  | some o => exact t.parents p n o hl

theorem leads_of_holds (h : Holds t.objects p) : Leads t.way follow [] (p.map .name) p := by
  suffices hlead : ∀ q r, Holds t.objects (q ++ r) → Leads t.way follow q (r.map .name)
    (q ++ r) from hlead [] p h
  intro q r
  induction r generalizing q with
  | nil =>
    intro _
    simpa using Leads.done q
  | cons n r ih =>
    intro h
    have hqn : Holds t.objects (q ++ [n]) := by
      rw [List.append_cons] at h
      by_cases hr : r = []
      · simpa [hr] using h
      · obtain ⟨o, ho, -⟩ := h.resolve_left (by simp)
        exact t.holds_of_append hr ho
    rw [List.append_cons] at h ⊢
    exact .into (way_eq_into hqn) (ih (q ++ [n]) h)

/-- The names of the tree lead nowhere else exactly if no link does. -/
theorem safe_names_iff : (∀ ns : List ν, Safe t.way follow (.inside [] (ns.map .name))) ↔
    ¬ LinkTurns t.way follow := by
  constructor
  · rintro h ⟨p, n, target, hway, hturns⟩
    have hnames := h (p ++ [n])
    have hlead : Leads t.way follow [] (p.map .name) p := leads_of_holds (holds_of_along hway)
    have hwalk := hlead.reaches [.name n]
    rw [List.map_append] at hnames
    cases hfollow : follow target with
    | none => exact absurd (hwalk.tail (by simp [step, hway, hfollow])) hnames
    | some ds =>
      obtain ⟨pre, post, rfl, hpre⟩ := hturns ds hfollow
      have hlink := hwalk.tail (c := .inside p (pre ++ .up :: post)) (by simp [step, hway, hfollow])
      exact hnames ((hlink.trans (hpre.reaches _)).tail (by simp [step]))
  · intro h ns hout
    obtain ⟨k, hk⟩ := exists_advance hout
    rw [← List.append_nil (ns.map _)] at hk
    rcases turns_of_advance hk with hlink | ⟨pre, post, hpre, -⟩ | ⟨q, j, -, -, hj⟩
    · exact h hlink
    · have hmem : Component.up ∈ ns.map Component.name := by simp [hpre]
      simp at hmem
    · cases j <;> cases hj

end names

end FileTree
