import Mathlib

/-! Computations that stop at the first failed check. The rules say what a
successful result means, one for each way of composing computations. -/

namespace Checked

universe u v

variable {ε : Type u} {α β : Type v}

def reject (c : Prop) [Decidable c] (e : ε) : Except ε Unit := if c then .error e else .ok ()

def required (e : ε) : Option α → Except ε α
  | none => .error e
  | some a => .ok a

@[simp] theorem reject_eq_ok {c : Prop} [Decidable c] {e : ε} {u : Unit} :
    reject c e = .ok u ↔ ¬ c := by
  unfold reject
  split_ifs with h <;> simp [h]

@[simp] theorem required_eq_ok {e : ε} {o : Option α} {a : α} :
    required e o = .ok a ↔ o = some a := by
  cases o <;> simp [required]

@[simp] theorem bind_eq_ok {x : Except ε α} {f : α → Except ε β} {b : β} :
    (x >>= f) = .ok b ↔ ∃ a, x = .ok a ∧ f a = .ok b := by
  cases x with
  | error e => simp [bind, Except.bind]
  | ok a => simp [bind, Except.bind]

@[simp] theorem pure_eq_ok {a b : α} : (pure a : Except ε α) = .ok b ↔ a = b := by
  simp [pure, Except.pure]

@[simp] theorem throw_ne_ok {e : ε} {a : α} : ¬ (throw e : Except ε α) = .ok a := by
  simp [throw, throwThe, MonadExceptOf.throw]

theorem map_eq_ok {x : Except ε α} {f : α → β} {b : β} :
    x.map f = .ok b ↔ ∃ a, x = .ok a ∧ f a = b := by
  cases x <;> simp [Except.map]

@[simp] theorem mapError_eq_ok {ε' : Type u} {x : Except ε α} {f : ε → ε'} {a : α} :
    x.mapError f = .ok a ↔ x = .ok a := by
  cases x <;> simp [Except.mapError]

/-- The rules above as one, for `simp`. -/
theorem ok_iff {ε : Type} :
    (∀ {α β : Type} {x : Except ε α} {f : α → Except ε β} {b : β},
      (x >>= f) = .ok b ↔ ∃ a, x = .ok a ∧ f a = .ok b) ∧
    (∀ {α : Type} {a b : α}, (pure a : Except ε α) = .ok b ↔ a = b) ∧
    (∀ {c : Prop} [Decidable c] {e : ε} {u : Unit}, reject c e = .ok u ↔ ¬ c) ∧
    (∀ {α : Type} {e : ε} {o : Option α} {a : α}, required e o = .ok a ↔ o = some a) ∧
    ∀ {ε' α : Type} {x : Except ε' α} {f : ε' → ε} {a : α}, x.mapError f = .ok a ↔ x = .ok a :=
  ⟨bind_eq_ok, pure_eq_ok, reject_eq_ok, required_eq_ok, mapError_eq_ok⟩

theorem exists_of_isOk {x : Except ε α} (h : x.isOk = true) : ∃ a, x = .ok a := by
  cases x with
  | error e => simp [Except.isOk, Except.toBool] at h
  | ok a => exact ⟨a, rfl⟩

theorem mapM_eq_ok {f : α → Except ε β} {l : List α} {r : List β} :
    l.mapM f = .ok r ↔ List.Forall₂ (fun a b => f a = .ok b) l r := by
  induction l generalizing r with
  | nil => cases r <;> simp
  | cons a l ih =>
    rw [List.mapM_cons]
    simp only [bind_eq_ok, pure_eq_ok]
    constructor
    · rintro ⟨b, hb, bs, hbs, rfl⟩
      exact .cons hb (ih.mp hbs)
    · intro h
      cases h with
      | cons hb hbs => exact ⟨_, hb, _, ih.mpr hbs, rfl⟩

theorem exists_of_mem_right {R : α → β → Prop} {l : List α} {r : List β}
    (h : List.Forall₂ R l r) {b : β} (hb : b ∈ r) : ∃ a ∈ l, R a b := by
  induction h with
  | nil => simp at hb
  | cons hab _ ih =>
    rcases List.mem_cons.mp hb with rfl | hb
    · exact ⟨_, by simp, hab⟩
    · obtain ⟨a, ha, hf⟩ := ih hb
      exact ⟨a, by simp [ha], hf⟩

theorem exists_of_mem_left {R : α → β → Prop} {l : List α} {r : List β}
    (h : List.Forall₂ R l r) {a : α} (ha : a ∈ l) : ∃ b ∈ r, R a b :=
  exists_of_mem_right h.flip ha

theorem exists_of_mem_mapM {f : α → Except ε β} {l : List α} {r : List β}
    (h : l.mapM f = .ok r) {b : β} (hb : b ∈ r) : ∃ a ∈ l, f a = .ok b :=
  exists_of_mem_right (mapM_eq_ok.mp h) hb

theorem map_eq_map_of_mapM {γ : Type*} {f : α → Except ε β} {g : β → γ} {k : α → γ}
    {l : List α} {r : List β}
    (h : l.mapM f = .ok r) (hg : ∀ a ∈ l, ∀ b, f a = .ok b → g b = k a) : r.map g = l.map k := by
  rw [mapM_eq_ok] at h
  induction h with
  | nil => rfl
  | cons hab _ ih =>
    rw [List.map_cons, List.map_cons, hg _ (by simp) _ hab, ih fun a ha => hg a (by simp [ha])]

theorem forM_eq_ok {f : α → Except ε PUnit} {l : List α} {u : PUnit} :
    forM l f = .ok u ↔ ∀ a ∈ l, f a = .ok ⟨⟩ := by
  induction l with
  | nil => simp
  | cons a l ih =>
    rw [List.forM_cons, bind_eq_ok]
    constructor
    · rintro ⟨x, hx, hl⟩
      simpa using ⟨hx, ih.mp hl⟩
    · intro h
      exact ⟨⟨⟩, h a (by simp), ih.mpr fun b hb => h b (by simp [hb])⟩

/-- Invariant rule for a loop that may stop: what the first accumulator
satisfies and every successful round keeps, the final accumulator satisfies. -/
theorem foldlM_invariant {σ : Type v} {f : σ → α → Except ε σ} {l : List α} {s t : σ}
    (motive : List α → σ → Prop) (h : l.foldlM f s = .ok t) (init : motive [] s)
    (step : ∀ done a todo s s', l = done ++ a :: todo → motive done s → f s a = .ok s' →
      motive (done ++ [a]) s') : motive l t := by
  suffices H : ∀ done todo s, l = done ++ todo → motive done s → todo.foldlM f s = .ok t →
    motive l t from
    H [] l s rfl init h
  intro done todo
  induction todo generalizing done with
  | nil =>
    intro s hl hs ht
    simp only [List.foldlM_nil, pure_eq_ok] at ht
    rw [hl, List.append_nil, ← ht]
    exact hs
  | cons a todo ih =>
    intro s hl hs ht
    rw [List.foldlM_cons, bind_eq_ok] at ht
    obtain ⟨s', hstep, hrest⟩ := ht
    exact ih (done ++ [a]) s' (by simp [hl]) (step done a todo s s' hl hs hstep) hrest

/-- Progress rule for a loop that may stop: if every round from a good
accumulator succeeds in a good one, the loop ends in a good one. -/
theorem foldlM_progress {σ : Type v} {f : σ → α → Except ε σ} {l : List α} {s : σ}
    (motive : List α → σ → Prop) (init : motive [] s)
    (step : ∀ done a todo s, l = done ++ a :: todo → motive done s →
      ∃ s', f s a = .ok s' ∧ motive (done ++ [a]) s') : ∃ t, l.foldlM f s = .ok t ∧ motive l t := by
  suffices H : ∀ todo done s, l = done ++ todo → motive done s → ∃ t, todo.foldlM f s = .ok t ∧
    motive l t from
    H l [] s rfl init
  intro todo
  induction todo with
  | nil =>
    intro done s hl hs
    exact ⟨s, by simp, by rwa [hl, List.append_nil]⟩
  | cons a todo ih =>
    intro done s hl hs
    obtain ⟨s', hstep, hs'⟩ := step done a todo s hl hs
    obtain ⟨t, ht, hm⟩ := ih (done ++ [a]) s' (by simp [hl]) hs'
    exact ⟨t, by rw [List.foldlM_cons, bind_eq_ok]; exact ⟨s', hstep, ht⟩, hm⟩

/-- A loop that collects what it has seen and checks every element against it. -/
theorem foldlM_seen {f : List α → α → Except ε (List α)} {Q : α → Prop} {R : α → α → Prop}
    (hf : ∀ seen a r, f seen a = .ok r ↔ r = a :: seen ∧ Q a ∧ ∀ s ∈ seen, R s a)
    (l seen : List α) : (∃ r, l.foldlM f seen = .ok r) ↔ (∀ a ∈ l, Q a) ∧ l.Pairwise R ∧
      ∀ s ∈ seen, ∀ a ∈ l, R s a := by
  induction l generalizing seen with
  | nil => simp
  | cons a l ih =>
    simp only [List.foldlM_cons, bind_eq_ok]
    constructor
    · rintro ⟨r, s, hs, hr⟩
      obtain ⟨rfl, hq, hseen⟩ := (hf _ _ _).mp hs
      obtain ⟨hall, hpairs, hrest⟩ := (ih _).mp ⟨r, hr⟩
      refine ⟨by simpa using ⟨hq, hall⟩, List.pairwise_cons.mpr ⟨hrest a (by simp), hpairs⟩,
        fun x hx b hb => ?_⟩
      rcases List.mem_cons.mp hb with rfl | hb
      · exact hseen x hx
      · exact hrest x (by simp [hx]) b hb
    · rintro ⟨hall, hpairs, hseen⟩
      obtain ⟨hfirst, hpairs⟩ := List.pairwise_cons.mp hpairs
      have hrest : ∀ s ∈ a :: seen, ∀ b ∈ l, R s b := by
        intro s hs b hb
        rcases List.mem_cons.mp hs with rfl | hs
        · exact hfirst b hb
        · exact hseen s hs b (by simp [hb])
      obtain ⟨r, hr⟩ := (ih (a :: seen)).mpr ⟨fun b hb => hall b (by simp [hb]), hpairs, hrest⟩
      exact ⟨r, _, (hf _ _ _).mpr ⟨rfl, hall a (by simp), fun s hs => hseen s hs a (by simp)⟩, hr⟩

section stateful

variable {σ : Type v} {supplied : Prop} {s : σ}

/-- What a computation with a state gives from one state: every result has the
given property, and there is a result whenever it is supplied with what it
asks for. -/
structure Yields (supplied : Prop) (x : StateT σ (Except ε) α) (s : σ) (Q : α → σ → Prop) :
    Prop where
  total : supplied → ∃ r, x s = .ok r
  sound : ∀ a s', x s = .ok (a, s') → Q a s'

namespace Yields

variable {x : StateT σ (Except ε) α} {f : α → StateT σ (Except ε) β} {Q : α → σ → Prop}
  {R : β → σ → Prop}

theorem bind (hx : Yields supplied x s Q) (hf : ∀ a s', Q a s' → Yields supplied (f a) s' R) :
    Yields supplied (x >>= f) s R := by
  have hrun : (x >>= f) s = x s >>= fun r => f r.1 r.2 := rfl
  constructor
  · intro hs
    obtain ⟨⟨a, s'⟩, ha⟩ := hx.total hs
    rw [hrun, ha]
    exact (hf a s' (hx.sound a s' ha)).total hs
  · intro b s'' h
    rw [hrun, bind_eq_ok] at h
    obtain ⟨⟨a, s'⟩, ha, hb⟩ := h
    exact (hf a s' (hx.sound a s' ha)).sound b s'' hb

theorem of_eq {a : α} {s' : σ} (h : x s = .ok (a, s')) (hQ : Q a s') : Yields supplied x s Q := by
  refine ⟨fun _ => ⟨_, h⟩, fun b s'' hb => ?_⟩
  rw [h, Except.ok.injEq, Prod.mk.injEq] at hb
  obtain ⟨rfl, rfl⟩ := hb
  exact hQ

theorem of_pure {a : α} (hQ : Q a s) :
    Yields supplied (pure a : StateT σ (Except ε) α) s Q := of_eq rfl hQ

theorem of_get {Q : σ → σ → Prop} (hQ : Q s s) :
    Yields supplied (get : StateT σ (Except ε) σ) s Q :=
  of_eq rfl hQ

theorem of_set {next : σ} {Q : PUnit → σ → Prop} (hQ : Q ⟨⟩ next) :
    Yields supplied (set next : StateT σ (Except ε) PUnit) s Q := of_eq rfl hQ

theorem of_modify {g : σ → σ} {Q : PUnit → σ → Prop} (hQ : Q ⟨⟩ (g s)) :
    Yields supplied (modify g : StateT σ (Except ε) PUnit) s Q := of_eq rfl hQ

theorem of_lift {y : Except ε α} (htotal : supplied → ∃ a, y = .ok a)
    (hQ : ∀ a, y = .ok a → Q a s) : Yields supplied (liftM y : StateT σ (Except ε) α) s Q := by
  have hrun : (liftM y : StateT σ (Except ε) α) s = y >>= fun a => .ok (a, s) := rfl
  constructor
  · intro hs
    obtain ⟨a, ha⟩ := htotal hs
    exact ⟨(a, s), by rw [hrun, ha]; rfl⟩
  · intro a s' h
    rw [hrun, bind_eq_ok] at h
    obtain ⟨b, hb, he⟩ := h
    obtain ⟨rfl, rfl⟩ := Prod.mk.inj (Except.ok.inj he)
    exact hQ b hb

theorem imp {Q' : α → σ → Prop} (h : Yields supplied x s Q) (hQ : ∀ a s', Q a s' → Q' a s') :
    Yields supplied x s Q' :=
  ⟨h.total, fun a s' hx => hQ a s' (h.sound a s' hx)⟩

end Yields

end stateful

end Checked
