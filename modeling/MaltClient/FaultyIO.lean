import Mathlib.Data.List.Basic

/-! Programs that call the operating system. Every call may succeed or fail, and
the process may stop before it; a program is the list of all that can happen. -/

namespace FaultyIO

inductive Outcome (ε α : Type) where
  | done (a : α)
  | failed (e : ε)
  | crashed
  deriving DecidableEq, Repr

/-- The outcomes that are possible from a state, each with the state it leaves. A
process that is not stopped gets to an end of the program. -/
structure Prog (σ ε α : Type) where
  outcomes : σ → List (Outcome ε α × σ)
  ends : ∀ s, ∃ r ∈ outcomes s, r.1 ≠ .crashed

variable {σ ε ε' α β : Type}

namespace Prog

/-- Goes on after the value or the error. A process that has stopped does not. -/
def andThen (m : Prog σ ε α) (next : α → Prog σ ε' β) (handle : ε → Prog σ ε' β) : Prog σ ε' β where
  outcomes s := (m.outcomes s).flatMap fun r =>
    match r.1 with
    | .done a => (next a).outcomes r.2
    | .failed e => (handle e).outcomes r.2
    | .crashed => [(.crashed, r.2)]
  ends s := by
    obtain ⟨⟨o, t⟩, hr, ho⟩ := m.ends s
    cases o with
    | done a =>
      obtain ⟨r, hnext, hend⟩ := (next a).ends t
      exact ⟨r, List.mem_flatMap.mpr ⟨_, hr, hnext⟩, hend⟩
    | failed e =>
      obtain ⟨r, hnext, hend⟩ := (handle e).ends t
      exact ⟨r, List.mem_flatMap.mpr ⟨_, hr, hnext⟩, hend⟩
    | crashed => exact absurd rfl ho

def fail (e : ε) : Prog σ ε α := ⟨fun s => [(.failed e, s)], fun s => ⟨(.failed e, s), by simp⟩⟩

instance : Monad (Prog σ ε) where
  pure a := ⟨fun s => [(.done a, s)], fun s => ⟨(.done a, s), by simp⟩⟩
  bind m next := m.andThen next fail

def mapError (f : ε → ε') (m : Prog σ ε α) : Prog σ ε' α :=
  m.andThen (fun a => pure a) fun e => fail (f e)

/-- The value, or nothing if there was an error. -/
def orNone (m : Prog σ ε α) : Prog σ ε' (Option α) :=
  m.andThen (fun a => pure (some a)) fun _ => pure none

def recover (m : Prog σ ε α) (handle : ε → Prog σ ε α) : Prog σ ε α :=
  m.andThen (fun a => pure a) handle

/-- `_ = f()` -/
def ignoring (m : Prog σ ε Unit) : Prog σ ε Unit := m.recover fun _ => pure ()

/-- `defer f()`, whose own error is dropped. -/
def deferring (m : Prog σ ε α) (cleanup : Prog σ ε Unit) : Prog σ ε α :=
  m.andThen (fun a => cleanup.ignoring >>= fun _ => pure a) fun e => cleanup.ignoring >>=
    fun _ => fail e

def checked : Except ε α → Prog σ ε α
  | .ok a => pure a
  | .error e => fail e

/-- One call that reads. -/
def query (e : ε) (f : σ → α) : Prog σ ε α :=
  ⟨fun s => [(.done (f s), s), (.failed e, s), (.crashed, s)], fun s => ⟨(.failed e, s), by simp⟩⟩

/-- One call that writes. -/
def call (e : ε) (f : σ → σ) : Prog σ ε Unit :=
  ⟨fun s => [(.done (), f s), (.failed e, s), (.crashed, s)], fun s => ⟨(.failed e, s), by simp⟩⟩

/-- One program after another, for a list. -/
def each (l : List β) (f : β → Prog σ ε Unit) : Prog σ ε Unit :=
  match l with
  | [] => pure ()
  | b :: l => f b >>= fun _ => each l f

end Prog

open Prog

def Runs (m : Prog σ ε α) (s : σ) (o : Outcome ε α) (t : σ) : Prop := (o, t) ∈ m.outcomes s

def Outcome.Post (Q : α → σ → Prop) (E : ε → σ → Prop) (C : σ → Prop) : Outcome ε α → σ → Prop
  | .done a, t => Q a t
  | .failed e, t => E e t
  | .crashed, t => C t

/-- Whatever happens from the state: a value has `Q`, an error `E`, and a
process that stops leaves `C`. -/
def wp (m : Prog σ ε α) (Q : α → σ → Prop) (E : ε → σ → Prop) (C : σ → Prop) (s : σ) : Prop :=
  ∀ o t, Runs m s o t → o.Post Q E C t

/-- What a program comes to unless it is stopped. -/
def Comes (m : Prog σ ε α) (s : σ) (o : Outcome ε α) : Prop :=
  (∃ t, Runs m s o t) ∧ ∀ o' t, Runs m s o' t → o' = .crashed ∨ o' = o

section rules

variable {m : Prog σ ε α} {Q Q' : α → σ → Prop} {E E' : ε → σ → Prop} {C C' : σ → Prop} {s t : σ}
  {e : ε} {a : α}

theorem wp.mono (h : wp m Q E C s) (hQ : ∀ a t, Q a t → Q' a t) (hE : ∀ e t, E e t → E' e t)
    (hC : ∀ t, C t → C' t) : wp m Q' E' C' s := by
  intro o t hr
  have hpost := h o t hr
  cases o with
  | done a => exact hQ a t hpost
  | failed e => exact hE e t hpost
  | crashed => exact hC t hpost

@[simp] theorem wp_pure : wp (pure a : Prog σ ε α) Q E C s ↔ Q a s := by
  simp [wp, Runs, pure, Outcome.Post]

@[simp] theorem wp_fail : wp (fail e : Prog σ ε α) Q E C s ↔ E e s := by
  simp [wp, Runs, fail, Outcome.Post]

@[simp] theorem wp_query {f : σ → α} : wp (query e f) Q E C s ↔ Q (f s) s ∧ E e s ∧ C s := by
  simp [wp, Runs, query, Outcome.Post, or_imp, forall_and]

@[simp] theorem wp_call {f : σ → σ} {Q : Unit → σ → Prop} :
    wp (call e f) Q E C s ↔ Q () (f s) ∧ E e s ∧ C s := by
  simp [wp, Runs, call, Outcome.Post, or_imp, forall_and]

theorem wp_checked {x : Except ε α} :
    wp (checked x) Q E C s ↔ (∀ a, x = .ok a → Q a s) ∧ ∀ e, x = .error e → E e s := by
  cases x <;> simp [checked]

theorem wp_checked_of_ok {x : Except ε α} (h : x = .ok a) : wp (checked x) Q E C s ↔ Q a s := by
  rw [h]
  exact wp_pure

theorem wp_andThen {next : α → Prog σ ε' β} {handle : ε → Prog σ ε' β} {Q : β → σ → Prop}
    {E : ε' → σ → Prop} : wp (m.andThen next handle) Q E C s ↔
      wp m (fun a t => wp (next a) Q E C t) (fun e t => wp (handle e) Q E C t) C s := by
  constructor
  · intro h o t hr
    cases o with
    | done a => exact fun o' t' hr' => h o' t' (List.mem_flatMap.mpr ⟨_, hr, hr'⟩)
    | failed e => exact fun o' t' hr' => h o' t' (List.mem_flatMap.mpr ⟨_, hr, hr'⟩)
    | crashed => exact h .crashed t (List.mem_flatMap.mpr ⟨_, hr, List.mem_singleton_self _⟩)
  · intro h o t hr
    obtain ⟨⟨o', u⟩, hr', hnext⟩ := List.mem_flatMap.mp hr
    have hpost := h o' u hr'
    cases o' with
    | done a => exact hpost o t hnext
    | failed e => exact hpost o t hnext
    | crashed =>
      cases List.mem_singleton.mp hnext
      exact hpost

@[simp] theorem wp_bind {next : α → Prog σ ε β} {Q : β → σ → Prop} :
    wp (m >>= next) Q E C s ↔ wp m (fun a t => wp (next a) Q E C t) E C s := by
  refine wp_andThen.trans ?_
  simp only [wp_fail]

@[simp] theorem wp_mapError {f : ε → ε'} {E : ε' → σ → Prop} :
    wp (m.mapError f) Q E C s ↔ wp m Q (fun e t => E (f e) t) C s := by
  simp [mapError, wp_andThen]

@[simp] theorem wp_orNone {Q : Option α → σ → Prop} {E : ε' → σ → Prop} :
    wp (m.orNone : Prog σ ε' (Option α)) Q E C s ↔ wp m (fun a t => Q (some a) t)
      (fun _ t => Q none t) C s := by
  simp [orNone, wp_andThen]

@[simp] theorem wp_recover {handle : ε → Prog σ ε α} :
    wp (m.recover handle) Q E C s ↔ wp m Q (fun e t => wp (handle e) Q E C t) C s := by
  simp [recover, wp_andThen]

@[simp] theorem wp_ignoring {m : Prog σ ε Unit} {Q : Unit → σ → Prop} :
    wp m.ignoring Q E C s ↔ wp m (fun _ t => Q () t) (fun _ t => Q () t) C s := by
  simp [ignoring]

@[simp] theorem wp_deferring {cleanup : Prog σ ε Unit} :
    wp (m.deferring cleanup) Q E C s ↔
      wp m (fun a t => wp cleanup (fun _ u => Q a u) (fun _ u => Q a u) C t)
        (fun e t => wp cleanup (fun _ u => E e u) (fun _ u => E e u) C t) C s := by
  simp [deferring, wp_andThen]

theorem wp_each {l : List β} {f : β → Prog σ ε Unit} {I : σ → Prop} (hs : I s)
    (hstep : ∀ b ∈ l, ∀ t, I t → wp (f b) (fun _ => I) (fun _ => I) I t) :
    wp (each l f) (fun _ => I) (fun _ => I) I s := by
  induction l generalizing s with
  | nil => exact wp_pure.mpr hs
  | cons b l ih =>
    rw [each, wp_bind]
    refine (hstep b (by simp) s hs).mono ?_ (fun _ _ h => h) (fun _ h => h)
    intro _ t ht
    exact ih ht fun b' hb' => hstep b' (List.mem_cons_of_mem b hb')

theorem comes_of_forall {o : Outcome ε α} (h : ∀ o' t, Runs m s o' t → o' ≠ .crashed → o' = o) :
    Comes m s o := by
  obtain ⟨⟨o', t⟩, hr, hend⟩ := m.ends s
  refine ⟨⟨t, h o' t hr hend ▸ hr⟩, fun o'' u hu => ?_⟩
  by_cases hstop : o'' = .crashed
  · exact .inl hstop
  · exact .inr (h o'' u hu hstop)

end rules

end FaultyIO
