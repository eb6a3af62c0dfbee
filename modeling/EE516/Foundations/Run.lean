import Mathlib.Data.List.Forall2
import Mathlib.Logic.Relation

/-!
# Runs of a machine

A machine takes a state and an action to an event and a new state, or refuses the action. A run is
known by its history, the list of its events with the newest one first. `Run.invariant` is the
induction on runs: what holds at the start and survives every step holds in every state that a run
reaches.
-/

set_option autoImplicit false

namespace EE516.Foundations

universe u v w

variable {σ : Type u} {α : Type v} {ε : Type w}

/-- Some action takes the machine from `s` to `s'` with the event `e`. -/
def StepBy (step : σ → α → Option (ε × σ)) (s : σ) (e : ε) (s' : σ) : Prop :=
  ∃ a, step s a = some (e, s')

/-- A run from `s₀` with its history. -/
inductive Run (Step : σ → ε → σ → Prop) (s₀ : σ) : List ε → σ → Prop
  | start : Run Step s₀ [] s₀
  | step {τ : List ε} {s s' : σ} {e : ε} :
      Run Step s₀ τ s → Step s e s' → Run Step s₀ (e :: τ) s'

variable {Step : σ → ε → σ → Prop} {s₀ : σ}

/-- A property of histories and states that holds at the start and survives every step holds
throughout. -/
theorem Run.invariant (I : List ε → σ → Prop) (hstart : I [] s₀)
    (hstep : ∀ {τ s e s'}, Run Step s₀ τ s → I τ s → Step s e s' → I (e :: τ) s')
    {τ : List ε} {s : σ} (h : Run Step s₀ τ s) : I τ s := by
  induction h with
  | start => exact hstart
  | step hrun he ih => exact hstep hrun ih he

/-- A run with fewer steps allowed is a run. -/
theorem Run.mono {Step' : σ → ε → σ → Prop} (hle : ∀ {s e s'}, Step s e s' → Step' s e s')
    {τ : List ε} {s : σ} (h : Run Step s₀ τ s) : Run Step' s₀ τ s := by
  induction h with
  | start => exact .start
  | step _ he ih => exact .step ih (hle he)

/-- The earlier part of a run is a run. -/
theorem Run.before {τ τ' : List ε} {s : σ} (h : Run Step s₀ (τ' ++ τ) s) :
    ∃ s', Run Step s₀ τ s' := by
  induction τ' generalizing s with
  | nil => exact ⟨s, h⟩
  | cons e τ' ih =>
    cases h with
    | step hrun _ => exact ih hrun

/-- A run goes on from the state that another one reached. -/
theorem Run.append {τ τ' : List ε} {s s' : σ} (h : Run Step s₀ τ s) (h' : Run Step s τ' s') :
    Run Step s₀ (τ' ++ τ) s' := by
  induction h' with
  | start => exact h
  | step _ he ih => exact .step ih he

/-- A potential that falls with every step but the free ones, and rises by at most `c` with those,
bounds the number of the other steps. -/
theorem Run.countP_le (Φ : σ → Nat) (free : ε → Bool) (c : Nat)
    (hfall : ∀ {τ s e s'}, Run Step s₀ τ s → Step s e s' → free e = false → Φ s' < Φ s)
    (hrise : ∀ {τ s e s'}, Run Step s₀ τ s → Step s e s' → free e = true → Φ s' ≤ Φ s + c)
    {τ : List ε} {s : σ} (h : Run Step s₀ τ s) :
    τ.countP (fun e => !free e) + Φ s ≤ Φ s₀ + c * τ.countP free := by
  induction h with
  | start => simp
  | @step τ s s' e hrun he ih =>
    cases hfree : free e with
    | false =>
      have hlt := hfall hrun he hfree
      rw [List.countP_cons_of_pos (by simp [hfree]), List.countP_cons_of_neg (by simp [hfree])]
      omega
    | true =>
      have hle := hrise hrun he hfree
      rw [List.countP_cons_of_neg (by simp [hfree]), List.countP_cons_of_pos (by simp [hfree]),
        Nat.mul_succ]
      omega

/-- A machine whose every step is matched by a step of another one has its runs matched. -/
theorem Run.simulate {σ' : Type u} {ε' : Type w} {Step' : σ' → ε' → σ' → Prop} {s₀' : σ'}
    (R : σ → σ' → Prop) (E : ε → ε' → Prop) (hstart : R s₀ s₀')
    (hstep : ∀ {s e s₁ s'}, R s s' → Step s e s₁ →
      ∃ e' s₁', Step' s' e' s₁' ∧ E e e' ∧ R s₁ s₁')
    {τ : List ε} {s : σ} (h : Run Step s₀ τ s) :
    ∃ τ' s', Run Step' s₀' τ' s' ∧ R s s' ∧ List.Forall₂ E τ τ' := by
  induction h with
  | start => exact ⟨[], s₀', .start, hstart, .nil⟩
  | step _ he ih =>
    obtain ⟨τ', s', hrun', hR, hE⟩ := ih
    obtain ⟨e', s₁', he', hmatch, hR'⟩ := hstep hR he
    exact ⟨e' :: τ', s₁', .step hrun' he', hR', .cons hmatch hE⟩

/-- The machine that refuses the steps that a guard excludes. -/
def restrict (step : σ → α → Option (ε × σ)) (G : σ → ε → Prop) [∀ s e, Decidable (G s e)] (s : σ)
    (a : α) : Option (ε × σ) :=
  (step s a).filter fun r => decide (G s r.1)

/-- A step of the restricted system is one of the system, and is allowed. -/
theorem stepBy_restrict {step : σ → α → Option (ε × σ)} {G : σ → ε → Prop}
    [∀ s e, Decidable (G s e)] {s s' : σ} {e : ε} (h : StepBy (restrict step G) s e s') :
    StepBy step s e s' ∧ G s e := by
  obtain ⟨a, ha⟩ := h
  obtain ⟨hstep, hg⟩ := Option.filter_eq_some_iff.1 ha
  exact ⟨⟨a, hstep⟩, of_decide_eq_true hg⟩

/-- The machine performs the actions one after another; the events come newest first. -/
def perform (step : σ → α → Option (ε × σ)) : List ε → σ → List α → Option (List ε × σ)
  | τ, s, [] => some (τ, s)
  | τ, s, a :: l => do
    let (e, s') ← step s a
    perform step (e :: τ) s' l

/-- What was computed by performing a list of actions is a run. -/
theorem run_of_perform {step : σ → α → Option (ε × σ)} {l : List α} {τ τ' : List ε} {s s' : σ}
    (h : Run (StepBy step) s₀ τ s) (hl : perform step τ s l = some (τ', s')) :
    Run (StepBy step) s₀ τ' s' := by
  induction l generalizing τ s with
  | nil =>
    cases hl
    exact h
  | cons a l ih =>
    rw [perform, Option.bind_eq_bind, Option.bind_eq_some_iff] at hl
    obtain ⟨⟨e, s₁⟩, he, hl⟩ := hl
    exact ih (.step h ⟨a, he⟩) hl

/-- A run that was computed from its first state on is a run. -/
theorem run_of_get {step : σ → α → Option (ε × σ)} {l : List α}
    (h : (perform step [] s₀ l).isSome = true) :
    Run (StepBy step) s₀ ((perform step [] s₀ l).get h).1 ((perform step [] s₀ l).get h).2 :=
  run_of_perform .start (Option.some_get h).symm

end EE516.Foundations
