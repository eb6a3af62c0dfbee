import Mathlib.Data.List.Nodup
import EE516.MySemaphore.Orphans

/-!
# No wake-up is lost

A down that has to wait puts itself into the wait list, sets its task state and gives the lock back
before it calls the scheduler; an up takes the waiter out of the list, sets its flag and wakes its
task under the lock. So while the semaphore stays active a thread in the loop is in the list and its
flag is down, or it is in no list and its flag is up and its task runs (`no_lost_wakeup`), wherever
the up comes and however often the task wakes without one.
-/

set_option autoImplicit false

namespace EE516.MySemaphore

open EE516.Foundations

universe u

variable {Tid : Type u}

/-- The step is no release of the semaphore and no init of it. -/
def Steady (i : SemaId) : Event Tid → Prop
  | .released _ j => j ≠ i
  | .initialised _ j => j ≠ i
  | _ => True

instance (i : SemaId) : DecidablePred (@Steady Tid i)
  | .released _ j => inferInstanceAs (Decidable (j ≠ i))
  | .initialised _ j => inferInstanceAs (Decidable (j ≠ i))
  | .rejected _ _ | .checked _ _ | .decremented _ _ | .slept _ _ | .incremented _ _
  | .handed _ _ _ | .upFailed _ _ | .woken _ | .scheduled _ _ | .sleptAgain _ _ | .left _ _ =>
    .isTrue trivial

/-- How often an up set the flag of the waiter with which the thread went to sleep last. -/
def hands [DecidableEq Tid] (t : Tid) : List (Event Tid) → Nat
  | [] => 0
  | .slept u _ :: τ => if u = t then 0 else hands t τ
  | .handed _ w _ :: τ => if w = t then hands t τ + 1 else hands t τ
  | _ :: τ => hands t τ

variable {i : SemaId} {s₀ s s' : State Tid} {e : Event Tid} {τ : List (Event Tid)}

/-- A step that leaves an active semaphore active meets the condition on its sleepers. -/
theorem guarded_of_steady (hs : Steady i e) (hactive : (s.sem_set i).state = ACTIVE) :
    Guarded i s e := by
  cases e with
  | slept t j => exact fun _ => hactive
  | released t j => exact fun h => absurd h hs
  | initialised t j => exact fun h => absurd h hs
  | _ => trivial

variable [DecidableEq Tid]

/-! ## Steps -/

/-- The semaphore stays active. -/
theorem state_of_steady (hw : WellFormed s) (h : Effect s e s') (hs : Steady i e)
    (hactive : (s.sem_set i).state = ACTIVE) : (s'.sem_set i).state = ACTIVE := by
  by_cases hi : e.id = some i
  case neg => rw [(untouched_of_effect hw h hi).sem, hactive]
  cases h with
  | rejected | checked | upFailed | woken | scheduled | sleptAgain | left => exact hactive
  | initialised | released => exact absurd (Option.some.inj hi) hs
  | decremented | slept | incremented | handed =>
    obtain rfl := Option.some.inj hi
    simpa using hactive

/-- A flag that was set once since the thread went to sleep is up; so it is not set again. -/
def HandedOnce (τ : List (Event Tid)) (s : State Tid) : Prop :=
  ∀ t, hands t τ ≤ 1 ∧ (hands t τ = 1 → (s.waiter t).up = true)

/-- No step sets the flag of a thread a second time. -/
theorem HandedOnce.effect (h : HandedOnce τ s) (hw : WellFormed s) (he : Effect s e s') :
    HandedOnce (e :: τ) s' := by
  intro u
  obtain ⟨hle, hup⟩ := h u
  cases he with
  | @slept t j p junk l hpos hcount hl =>
    by_cases hut : t = u
    · simp [hands, hut]
    · simpa [hands, hut, Ne.symm hut] using And.intro hle hup
  | @handed t w j prio l l' hpos hl hne ho =>
    by_cases hwu : w = u
    · subst hwu
      -- a waiter in the list is not up, so no up has set its flag yet
      have hdown := ((hw j l hl).2 w ((wakeOrder_perm ho).mem_iff.1 List.mem_cons_self)).2
      have hzero : hands w τ = 0 := by
        rcases Nat.lt_or_ge (hands w τ) 1 with hlt | hge
        · exact Nat.lt_one_iff.1 hlt
        · rw [hup (Nat.le_antisymm hle hge)] at hdown
          cases hdown
      simp [hands, hzero]
    · simpa [hands, hwu, Ne.symm hwu] using And.intro hle hup
  | _ => exact ⟨hle, hup⟩

/-- The only way out of the loop is with the flag up. -/
theorem left_of_effect (h : Effect s e s') {t : Tid} (hin : InLoop s t i)
    (hout : ¬ InLoop s' t i) : e = .left t i ∧ (s.waiter t).up = true := by
  have hmove : ∀ u, (∀ v, v ≠ u → s'.pos v = s.pos v) → t = u := by
    intro u hother
    by_contra hne
    exact hout ((inLoop_iff_of_pos (hother t hne) i).2 hin)
  -- a thread that commits a call is not in the loop before it
  have hcommit : ∀ u k, s.pos u = .checked k → ¬ ∀ v, v ≠ u → s'.pos v = s.pos v := by
    intro u k hpos hother
    obtain rfl := hmove u hother
    exact not_inLoop_of_checked hpos i hin
  have hother : ∀ (r : State Tid) (u : Tid) (p : Position) (v : Tid), v ≠ u →
      (r.setPos u p).pos v = r.pos v := fun r u p v hv => by simp [hv]
  cases h with
  | rejected | woken => exact absurd hin hout
  | @checked u c k hpos hc =>
    obtain rfl := hmove u (hother _ u _)
    exact absurd hin (not_inLoop_of_idle hpos i)
  | initialised hpos => exact absurd (hother _ _ _) (hcommit _ _ hpos)
  | decremented hpos => exact absurd (hother _ _ _) (hcommit _ _ hpos)
  | slept hpos => exact absurd (hother _ _ _) (hcommit _ _ hpos)
  | incremented hpos => exact absurd (hother _ _ _) (hcommit _ _ hpos)
  | handed hpos => exact absurd (hother _ _ _) (hcommit _ _ hpos)
  | upFailed hpos => exact absurd (hother _ _ _) (hcommit _ _ hpos)
  | released hpos => exact absurd (hother _ _ _) (hcommit _ _ hpos)
  | @scheduled u j hpos htask =>
    obtain rfl := hmove u (hother _ u _)
    obtain rfl : j = i := InLoop.of_eq (Or.inl hpos) hin
    exact absurd (Or.inr (by simp)) hout
  | @sleptAgain u j hpos hup =>
    obtain rfl := hmove u (hother _ u _)
    obtain rfl : j = i := InLoop.of_eq (Or.inr hpos) hin
    exact absurd (Or.inl (by simp)) hout
  | @left u j hpos hup =>
    obtain rfl := hmove u (hother _ u _)
    obtain rfl : j = i := InLoop.of_eq (Or.inr hpos) hin
    exact ⟨rfl, hup⟩

/-! ## Runs -/

/-- On a semaphore that stays active, in every order of the steps of any number of threads: a thread
in the loop of a down whose waiter is up is in no wait list and its task runs; one whose waiter is
not up is in the wait list once; the flag of a waiter is set at most once; and a thread leaves the
loop only with its waiter up. -/
theorem no_lost_wakeup (hstart : Initialised i s₀)
    (hrun : Run (fun s e s' => StepBy step s e s' ∧ Steady i e) s₀ τ s) :
    (∀ t, InLoop s t i → (s.waiter t).up = true →
      s.task t = .TASK_RUNNING ∧ ∀ j l, (s.sem_set j).wait_list = some l → t ∉ l) ∧
    (∀ t, InLoop s t i → (s.waiter t).up = false →
      ∃ l, (s.sem_set i).wait_list = some l ∧ l.count t = 1) ∧
    (∀ t, hands t τ ≤ 1) ∧
    ∀ t e s', StepBy step s e s' → InLoop s t i → ¬ InLoop s' t i →
      e = .left t i ∧ (s.waiter t).up = true := by
  have hw : WellFormed s := (hstart.reachable.run (hrun.mono fun h => h.1)).wellFormed
  have hinv : (s.sem_set i).state = ACTIVE ∧ Kept i s ∧ HandedOnce τ s := by
    refine hrun.invariant
      (fun τ s => (s.sem_set i).state = ACTIVE ∧ Kept i s ∧ HandedOnce τ s)
      ⟨hstart.state, hstart.kept, fun t => ⟨Nat.zero_le _, nofun⟩⟩ ?_
    rintro τ s e s' hrun ⟨hactive, hkept, honce⟩ ⟨he, hs⟩
    have hw : WellFormed s := (hstart.reachable.run (hrun.mono fun h => h.1)).wellFormed
    have heff := effect_of_step he
    exact ⟨state_of_steady hw heff hs hactive,
      hkept.effect hw heff (guarded_of_steady hs hactive), honce.effect hw heff⟩
  obtain ⟨-, hkept, honce⟩ := hinv
  refine ⟨fun t ht hup => ⟨hkept.woken t ht hup, fun j l hl hm => ?_⟩, fun t ht hup => ?_,
    fun t => (honce t).1, fun t e s' he => left_of_effect (effect_of_step he)⟩
  · have hdown := ((hw j l hl).2 t hm).2
    rw [hup] at hdown
    cases hdown
  · obtain ⟨-, l, hl, hm⟩ := hkept.waiting t ht hup
    exact ⟨l, hl, List.count_eq_one_of_mem (hw i l hl).1 hm⟩

/-- The up comes between the unlock of the down and its call of the scheduler. -/
theorem no_lost_wakeup_early :
    ∃ (s₀ s : State (Fin 2)) (τ : List (Event (Fin 2))), Initialised 2 s₀ ∧
      Run (fun s e s' => StepBy step s e s' ∧ Steady 2 e) s₀ τ s ∧ s.pos 1 = .sleeping 2 ∧
      (s.waiter 1).up = true ∧ s.task 1 = .TASK_RUNNING := by
  let l₀ : List (Action (Fin 2)) := [.call 0 (.init 2 0 FIFO), .commit 0 0 fun _ => 0]
  let r₀ := (perform step [] (boot (Fin 2)) l₀).get rfl
  let l : List (Action (Fin 2)) :=
    [.call 1 (.down 2), .commit 1 0 fun _ => 0, .call 0 (.up 2), .commit 0 0 fun _ => 0]
  let r := (perform (restrict step fun _ => Steady 2) [] r₀.2 l).get rfl
  have hrun₀ : Run (StepBy step) (boot (Fin 2)) r₀.1 r₀.2 := run_of_get rfl
  have hrun : Run (StepBy (restrict step fun _ => Steady 2)) r₀.2 r.1 r.2 := run_of_get rfl
  have hidle : ∀ t, r₀.2.pos t = .idle := by decide
  have hstart : Initialised 2 r₀.2 :=
    ⟨⟨_, hrun₀⟩, rfl, rfl, fun t => not_inLoop_of_idle (hidle t) 2⟩
  have hsteady := hrun.mono stepBy_restrict
  obtain ⟨hup, -⟩ := no_lost_wakeup hstart hsteady
  exact ⟨r₀.2, r.2, r.1, hstart, hsteady, rfl, rfl, (hup 1 (Or.inl rfl) rfl).1⟩

end EE516.MySemaphore
