import MaltClient.Checked

/-! Programs that question an environment they do not control. A program is the
tree of its questions. Its runs are the paths through that tree, one for each
way in which the environment can answer. -/

namespace Dialogue

/-- Either an end, or a question and how the program goes on with the answer. -/
inductive Prog {Q : Type} (A : Q → Type) (ε α : Type) where
  | stop (result : Except ε α)
  | ask (q : Q) (next : A q → Prog A ε α)

structure Exchange {Q : Type} (A : Q → Type) where
  question : Q
  answer : A question

variable {Q : Type} {A : Q → Type} {ε α β : Type}

namespace Prog

/-- Goes on after the value. An error ends the program. -/
def andThen : Prog A ε α → (α → Prog A ε β) → Prog A ε β
  | .stop (.error e), _ => .stop (.error e)
  | .stop (.ok a), next => next a
  | .ask q rest, next => .ask q fun answer => (rest answer).andThen next

instance : Monad (Prog A ε) where
  pure a := .stop (.ok a)
  bind := andThen

/-- A question whose answer may be an error. -/
def attempt (q : Q) (answered : A q → Except ε α) : Prog A ε α :=
  .ask q fun answer => .stop (answered answer)

/-- The run with an environment whose answer depends on the number of the question. -/
def exec (answers : Nat → (q : Q) → A q) : Nat → Prog A ε α → List (Exchange A) × Except ε α
  | _, .stop result => ([], result)
  | i, .ask q next =>
    let rest := (next (answers i q)).exec answers (i + 1)
    (⟨q, answers i q⟩ :: rest.1, rest.2)

theorem stop_bind (x : Except ε α) (f : α → Except ε β) :
    (stop (x >>= f) : Prog A ε β) = stop x >>= fun a => stop (f a) := by
  cases x <;> rfl

end Prog

/-- The exchanges of one run, and what it returns. -/
inductive Runs : Prog A ε α → List (Exchange A) → Except ε α → Prop where
  | stop (result : Except ε α) : Runs (.stop result) [] result
  | ask (q : Q) (answer : A q) (next : A q → Prog A ε α) (trace : List (Exchange A))
      (result : Except ε α) :
      Runs (next answer) trace result → Runs (.ask q next) (⟨q, answer⟩ :: trace) result

variable {m : Prog A ε α} {trace : List (Exchange A)} {result : Except ε α}

@[simp] theorem runs_stop {r : Except ε α} : Runs (.stop r : Prog A ε α) trace result ↔ trace = [] ∧
    result = r := by
  constructor
  · intro h
    cases h
    exact ⟨rfl, rfl⟩
  · rintro ⟨rfl, rfl⟩
    exact .stop _

@[simp] theorem runs_pure {a : α} :
    Runs (pure a : Prog A ε α) trace result ↔ trace = [] ∧ result = .ok a := runs_stop

theorem runs_ask {q : Q} {next : A q → Prog A ε α} :
    Runs (.ask q next) trace result ↔ ∃ answer rest, trace = ⟨q, answer⟩ :: rest ∧
      Runs (next answer) rest result := by
  constructor
  · intro h
    cases h with
    | ask _ answer _ rest _ hr => exact ⟨answer, rest, rfl, hr⟩
  · rintro ⟨answer, rest, rfl, hr⟩
    exact .ask q answer next rest result hr

@[simp] theorem runs_attempt {q : Q} {answered : A q → Except ε α} :
    Runs (Prog.attempt q answered) trace result ↔ ∃ answer, trace = [⟨q, answer⟩] ∧
      result = answered answer := by
  simp only [Prog.attempt, runs_ask, runs_stop]
  constructor
  · rintro ⟨answer, rest, rfl, rfl, rfl⟩
    exact ⟨answer, rfl, rfl⟩
  · rintro ⟨answer, rfl, rfl⟩
    exact ⟨answer, [], rfl, rfl, rfl⟩

theorem runs_exec (answers : Nat → (q : Q) → A q) (i : Nat) :
    Runs m (m.exec answers i).1 (m.exec answers i).2 := by
  induction m generalizing i with
  | stop result => exact .stop result
  | ask q next ih => exact .ask q (answers i q) next _ _ (ih (answers i q) (i + 1))

theorem forall_mem_exec {answers : Nat → (q : Q) → A q} {p : Exchange A → Prop}
    (hp : ∀ i q, p ⟨q, answers i q⟩) (i : Nat) : ∀ e ∈ (m.exec answers i).1, p e := by
  induction m generalizing i with
  | stop result => simp [Prog.exec]
  | ask q next ih =>
    intro e he
    rcases List.mem_cons.mp he with rfl | he
    · exact hp i q
    · exact ih (answers i q) (i + 1) e he

/-- A run of two programs ends in the first one with its error, or is a
successful run of the first one followed by a run of the second. -/
theorem runs_bind {next : α → Prog A ε β} {r : Except ε β} :
    Runs (m >>= next) trace r ↔
      (∃ e, Runs m trace (.error e) ∧ r = .error e) ∨
      ∃ a first rest, trace = first ++ rest ∧ Runs m first (.ok a) ∧ Runs (next a) rest r := by
  change Runs (m.andThen next) trace r ↔ _
  induction m generalizing trace with
  | stop result =>
    cases result with
    | error e => simp [Prog.andThen, runs_stop]
    | ok a => simp [Prog.andThen, runs_stop]
  | ask q rest ih =>
    simp only [Prog.andThen, runs_ask, ih]
    constructor
    · rintro ⟨answer, tail, rfl, ⟨e, he, rfl⟩ | ⟨a, first, rest', rfl, ha, hr⟩⟩
      · exact .inl ⟨e, ⟨answer, tail, rfl, he⟩, rfl⟩
      · exact .inr ⟨a, ⟨q, answer⟩ :: first, rest', rfl, ⟨answer, first, rfl, ha⟩, hr⟩
    · rintro (⟨e, ⟨answer, tail, rfl, he⟩, rfl⟩ | ⟨a, first, rest', rfl,
        ⟨answer, tail, rfl, ha⟩, hr⟩)
      · exact ⟨answer, tail, rfl, .inl ⟨e, he, rfl⟩⟩
      · exact ⟨answer, tail ++ rest', rfl, .inr ⟨a, tail, rest', rfl, ha, hr⟩⟩

theorem runs_bind_ok {next : α → Prog A ε β} {b : β} :
    Runs (m >>= next) trace (.ok b) ↔
      ∃ a first rest, trace = first ++ rest ∧ Runs m first (.ok a) ∧
        Runs (next a) rest (.ok b) := by
  simp [runs_bind]

theorem runs_map {f : α → β} {r : Except ε β} :
    Runs (m >>= fun a => pure (f a)) trace r ↔ ∃ r', Runs m trace r' ∧ r = r'.map f := by
  rw [runs_bind]
  constructor
  · rintro (⟨e, he, rfl⟩ | ⟨a, first, rest, rfl, ha, hr⟩)
    · exact ⟨.error e, he, rfl⟩
    · obtain ⟨rfl, rfl⟩ := runs_pure.mp hr
      exact ⟨.ok a, by simpa using ha, rfl⟩
  · rintro ⟨r', hr', rfl⟩
    cases r' with
    | error e => exact .inl ⟨e, hr', rfl⟩
    | ok a => exact .inr ⟨a, trace, [], by simp, hr', runs_pure.mpr ⟨rfl, rfl⟩⟩

theorem runs_stop_bind {next : α → Prog A ε β} {x : Except ε α} {a : α} {r : Except ε β}
    (h : x = .ok a) : Runs ((.stop x : Prog A ε α) >>= next) trace r ↔ Runs (next a) trace r := by
  subst h
  rfl

/-- Every question that the program can ask is one of these. -/
def Asks (p : Q → Prop) : Prog A ε α → Prop
  | .stop _ => True
  | .ask q next => p q ∧ ∀ answer, Asks p (next answer)

theorem Asks.bind {p : Q → Prop} {next : α → Prog A ε β} (h : Asks p m)
    (hnext : ∀ a, Asks p (next a)) : Asks p (m >>= next) := by
  change Asks p (m.andThen next)
  induction m with
  | stop r =>
    cases r with
    | error e => trivial
    | ok a => exact hnext a
  | ask q rest ih => exact ⟨h.1, fun answer => ih answer (h.2 answer)⟩

theorem Asks.attempt {p : Q → Prop} {q : Q} {answered : A q → Except ε α} (h : p q) :
    Asks p (Prog.attempt q answered) := ⟨h, fun _ => trivial⟩

theorem Asks.runs {p : Q → Prop} (h : Asks p m) (hr : Runs m trace result) :
    ∀ e ∈ trace, p e.question := by
  induction hr with
  | stop r => simp
  | ask q answer next rest r _ ih =>
    intro e he
    rcases List.mem_cons.mp he with rfl | he
    · exact h.1
    · exact ih (h.2 answer) e he

/-! ### Questions whose answers do not matter -/

/-- `n` is `m` without the questions that are not `seen`. However those are
answered, `m` goes on in the same way. -/
inductive Hides (seen : Q → Bool) : Prog A ε α → Prog A ε α → Prop where
  | stop (result : Except ε α) : Hides seen (.stop result) (.stop result)
  | ask (q : Q) (next next' : A q → Prog A ε α) :
      seen q = true → (∀ answer, Hides seen (next answer) (next' answer)) →
      Hides seen (.ask q next) (.ask q next')
  | skip (q : Q) (next : A q → Prog A ε α) (n : Prog A ε α) : seen q = false →
      (∀ answer, Hides seen (next answer) n) → Hides seen (.ask q next) n

/-- The exchanges of a trace whose questions are `seen`. -/
def seenBy (seen : Q → Bool) (trace : List (Exchange A)) : List (Exchange A) :=
  trace.filter fun e => seen e.question

@[simp] theorem seenBy_append (seen : Q → Bool) (s t : List (Exchange A)) :
    seenBy seen (s ++ t) = seenBy seen s ++ seenBy seen t := List.filter_append s t

variable {seen : Q → Bool} {n : Prog A ε α}

theorem Hides.attempt (q : Q) (hq : seen q = true) (answered : A q → Except ε α) :
    Hides seen (Prog.attempt q answered) (Prog.attempt q answered) :=
  .ask q _ _ hq fun answer => .stop (answered answer)

theorem Hides.bind {f g : α → Prog A ε β} (h : Hides seen m n) (hf : ∀ a, Hides seen (f a) (g a)) :
    Hides seen (m >>= f) (n >>= g) := by
  change Hides seen (m.andThen f) (n.andThen g)
  induction h with
  | stop result =>
    cases result with
    | error e => exact .stop _
    | ok a => exact hf a
  | ask q next next' hq _ ih => exact .ask q _ _ hq ih
  | skip q next n hq _ ih => exact .skip q _ _ hq ih

theorem Hides.runs (h : Hides seen m n) (hr : Runs m trace result) :
    Runs n (seenBy seen trace) result := by
  induction h generalizing trace with
  | stop r =>
    obtain ⟨rfl, rfl⟩ := runs_stop.mp hr
    exact .stop _
  | ask q next next' hq _ ih =>
    obtain ⟨answer, rest, rfl, hrest⟩ := runs_ask.mp hr
    simpa [seenBy, hq] using Runs.ask q answer next' _ _ (ih answer hrest)
  | skip q next n hq _ ih =>
    obtain ⟨answer, rest, rfl, hrest⟩ := runs_ask.mp hr
    simpa [seenBy, hq] using ih answer hrest

/-! ### Environments with a state -/

/-- An environment whose answers depend on nothing but its state. -/
abbrev Machine (A : Q → Type) (σ : Type) := σ → (q : Q) → A q × σ

variable {σ : Type} {machine : Machine A σ}

/-- The trace is how the machine answers, and takes it from the first state to the
last one. -/
def Follows (machine : Machine A σ) : σ → List (Exchange A) → σ → Prop
  | s, [], s' => s' = s
  | s, e :: rest, s' =>
    e.answer = (machine s e.question).1 ∧ Follows machine (machine s e.question).2 rest s'

/-- The run of a program against a machine, with the state that it leaves. -/
def Prog.against (machine : Machine A σ) : Prog A ε α → σ → Except ε α × σ
  | .stop result, s => (result, s)
  | .ask q next, s => (next (machine s q).1).against machine (machine s q).2

theorem Prog.against_bind {next : α → Prog A ε β} {a : α} {s s' : σ}
    (h : m.against machine s = (.ok a, s')) :
    (m >>= next).against machine s = (next a).against machine s' := by
  change (m.andThen next).against machine s = _
  induction m generalizing s with
  | stop result =>
    cases h
    rfl
  | ask q rest ih => exact ih _ h

theorem Prog.against_bind_error {next : α → Prog A ε β} {e : ε} {s s' : σ}
    (h : m.against machine s = (.error e, s')) :
    (m >>= next).against machine s = (.error e, s') := by
  change (m.andThen next).against machine s = _
  induction m generalizing s with
  | stop result =>
    cases h
    rfl
  | ask q rest ih => exact ih _ h

/-- It is the one run of the program in which the machine answers. -/
theorem runs_against (s : σ) : ∃ trace, Runs m trace (m.against machine s).1 ∧
    Follows machine s trace (m.against machine s).2 := by
  induction m generalizing s with
  | stop result => exact ⟨[], .stop result, rfl⟩
  | ask q next ih =>
    obtain ⟨trace, hr, hf⟩ := ih (machine s q).1 (machine s q).2
    exact ⟨_, .ask q _ next trace _ hr, rfl, hf⟩

theorem runs_unique {s s₁ s₂ : σ} {t₁ t₂ : List (Exchange A)} {r₁ r₂ : Except ε α}
    (h₁ : Runs m t₁ r₁)
    (h₂ : Runs m t₂ r₂) (f₁ : Follows machine s t₁ s₁) (f₂ : Follows machine s t₂ s₂) :
    t₁ = t₂ ∧ r₁ = r₂ ∧ s₁ = s₂ := by
  induction m generalizing s t₁ t₂ with
  | stop result =>
    obtain ⟨rfl, rfl⟩ := runs_stop.mp h₁
    obtain ⟨rfl, rfl⟩ := runs_stop.mp h₂
    exact ⟨rfl, rfl, f₁.trans f₂.symm⟩
  | ask q next ih =>
    obtain ⟨a₁, u₁, rfl, n₁⟩ := runs_ask.mp h₁
    obtain ⟨a₂, u₂, rfl, n₂⟩ := runs_ask.mp h₂
    have e₁ : a₁ = (machine s q).1 := f₁.1
    have e₂ : a₂ = (machine s q).1 := f₂.1
    subst e₁ e₂
    obtain ⟨rfl, hr, hs⟩ := ih _ n₁ n₂ f₁.2 f₂.2
    exact ⟨rfl, hr, hs⟩

/-- Two runs of a program against the same machine agree in everything but the
hidden questions and their answers. -/
theorem Hides.unique (h : Hides seen m n) {s s₁ s₂ : σ} {t₁ t₂ : List (Exchange A)}
    {r₁ r₂ : Except ε α}
    (h₁ : Runs m t₁ r₁) (h₂ : Runs m t₂ r₂) (f₁ : Follows machine s (seenBy seen t₁) s₁)
    (f₂ : Follows machine s (seenBy seen t₂) s₂) :
    seenBy seen t₁ = seenBy seen t₂ ∧ r₁ = r₂ ∧ s₁ = s₂ :=
  runs_unique (h.runs h₁) (h.runs h₂) f₁ f₂

end Dialogue
