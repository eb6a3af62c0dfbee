import EE516.MySemaphore.Counting
import EE516.MySemaphore.Wakeups

/-!
# Every up makes progress

An init takes any mode, a down waits in any mode, and an up serves the waiters in three modes only.
So an up makes progress as long as the mode is one of the three or nobody waits, and then as many
ups as there are waiters release them all.
-/

set_option autoImplicit false

namespace EE516.MySemaphore

open EE516.Foundations

universe u

variable {Tid : Type u} {i : SemaId} {k : Nat} {mode : Int} {s₀ s s' : State Tid}
variable {e : Event Tid} {τ : List (Event Tid)} {l : List Tid} {t : Tid}

/-- The step is no release of the semaphore. -/
def Unreleased (i : SemaId) : Event Tid → Prop
  | .released _ j => j ≠ i
  | _ => True

instance (i : SemaId) : DecidablePred (@Unreleased Tid i)
  | .released _ j => inferInstanceAs (Decidable (j ≠ i))
  | .rejected _ _ | .checked _ _ | .initialised _ _ | .decremented _ _ | .slept _ _
  | .incremented _ _ | .handed _ _ _ | .upFailed _ _ | .woken _ | .scheduled _ _
  | .sleptAgain _ _ | .left _ _ => .isTrue trivial

/-- The semaphore is active, in this mode, with an initialised list, and no `sys_mysema_init` of it
that has passed its checks is under way. -/
structure Ready (i : SemaId) (mode : Int) (s : State Tid) : Prop where
  mode : (s.sem_set i).mode = mode
  state : (s.sem_set i).state = ACTIVE
  list : (s.sem_set i).wait_list ≠ none
  noInit : NoInit i s

/-- The modes in which `sys_mysema_up` serves waiters. -/
def ValidMode (mode : Int) : Prop :=
  mode = FIFO ∨ mode = OS ∨ mode = USER

instance (mode : Int) : Decidable (ValidMode mode) :=
  inferInstanceAs (Decidable (_ ∨ _))

/-- A fresh semaphore is ready if no init of it is under way. -/
theorem ready_of_sem (h : s.sem_set i = ⟨mode, k, ACTIVE, some []⟩) (hno : NoInit i s) :
    Ready i mode s :=
  ⟨by rw [h], by rw [h], by rw [h]; exact nofun, hno⟩

/-- An up has no order for the waiters exactly in an invalid mode. -/
theorem wakeOrder_eq_none {prio : Tid → Int} {waiter : Tid → MysemaphoreWaiter} :
    wakeOrder mode prio waiter l = none ↔ ¬ ValidMode mode := by
  rw [wakeOrder, ValidMode]
  split
  case isTrue h => simp [h]
  case isFalse h =>
    split
    case isTrue h' => simp [h']
    case isFalse h' =>
      split
      case isTrue h'' => simp [h'']
      case isFalse h'' => simp [h, h', h'']

variable [DecidableEq Tid]

/-- The up of the thread returned 0: it woke exactly one of the waiters, which is running again, or
it incremented the count if there were none. -/
def Progresses (i : SemaId) (t : Tid) (s : State Tid) (e : Event Tid) (s' : State Tid) : Prop :=
  match (s.sem_set i).wait_list with
  | none => False
  | some [] =>
    e = .incremented t i ∧
      s'.sem_set i = { s.sem_set i with count := (s.sem_set i).count + 1 }
  | some l =>
    ∃ w l', e = .handed t w i ∧ l.Perm (w :: l') ∧
      s'.sem_set i = { s.sem_set i with wait_list := some l' } ∧ (s'.waiter w).up = true ∧
      s'.task w = .TASK_RUNNING ∧ ∀ u, u ≠ w → s'.waiter u = s.waiter u ∧ s'.task u = s.task u

/-- When an up makes progress: without waiters if the count is not at its maximum, with waiters if
the mode is valid. -/
def Serviceable (m : Mysemaphore Tid) : Prop :=
  if m.wait_list = some [] then m.count + 1 < UINT_RANGE else ValidMode m.mode

instance (m : Mysemaphore Tid) : Decidable (Serviceable m) := by
  unfold Serviceable
  infer_instance

/-! ## One step -/

/-- From a ready semaphore no step but a release makes it anything else. -/
theorem Ready.steady (h : Ready i mode s) (he : Effect s e s') (hu : Unreleased i e) :
    Steady i e := by
  cases he with
  | released => exact hu
  | @initialised t j v m hpos =>
    rintro rfl
    exact h.noInit t v m hpos
  | _ => trivial

/-- Every step but a release keeps a semaphore ready. -/
theorem Ready.effect (h : Ready i mode s) (hw : WellFormed s) (he : Effect s e s')
    (hu : Unreleased i e) : Ready i mode s' := by
  have hs := h.steady he hu
  have hno := noInit_of_effect he h.state h.noInit
  by_cases hi : e.id = some i
  case neg =>
    have hsem := (untouched_of_effect hw he hi).sem
    exact ⟨hsem ▸ h.mode, hsem ▸ h.state, hsem ▸ h.list, hno⟩
  cases he with
  | rejected | checked | upFailed | woken | scheduled | sleptAgain | left =>
    exact ⟨h.mode, h.state, h.list, hno⟩
  | initialised | released => exact absurd (Option.some.inj hi) hs
  | decremented | incremented =>
    obtain rfl := Option.some.inj hi
    exact ⟨by simpa using h.mode, by simpa using h.state, by simpa using h.list, hno⟩
  | slept | handed =>
    obtain rfl := Option.some.inj hi
    exact ⟨by simpa using h.mode, by simpa using h.state, by simp, hno⟩

/-- The commit of an up. -/
theorem upCommit_progresses_iff (h : Ready i mode s) (t : Tid) (prio : Tid → Int) :
    ∃ e s', upCommit s t i prio = some (e, s') ∧
      (Progresses i t s e s' ↔ Serviceable (s.sem_set i)) := by
  rw [upCommit, Serviceable]
  cases hl : (s.sem_set i).wait_list with
  | none => exact absurd hl h.list
  | some l =>
    cases l with
    | nil =>
      refine ⟨_, _, rfl, ?_⟩
      rw [Progresses, hl, if_pos rfl]
      -- the count goes up by one unless it wraps around
      constructor
      · rintro ⟨-, hsem⟩
        have hcount := congrArg Mysemaphore.count hsem
        simp only [State.setPos_sem_set, State.setSem_sem_set, Function.update_self] at hcount
        rw [← hcount]
        exact Nat.mod_lt _ (by decide)
      · intro hlt
        refine ⟨rfl, ?_⟩
        simp [Nat.mod_eq_of_lt hlt, hl]
    | cons v l =>
      rw [if_neg (by simp)]
      cases ho : wakeOrder (s.sem_set i).mode prio s.waiter (v :: l) with
      | none =>
        -- no branch of `sys_mysema_up` is for the mode
        refine ⟨.upFailed t i, s.setPos t .idle, by simp only [ho], iff_of_false ?_ ?_⟩
        · rw [Progresses, hl]
          rintro ⟨w, l', he, -⟩
          cases he
        · exact wakeOrder_eq_none.1 ho
      | some l' =>
        have hperm := wakeOrder_perm ho
        have hvalid : ValidMode (s.sem_set i).mode := by
          by_contra hinvalid
          rw [wakeOrder_eq_none.2 hinvalid] at ho
          cases ho
        cases l' with
        | nil => exact absurd hperm.length_eq (by simp)
        | cons w l' =>
          dsimp only
          rw [ho]
          refine ⟨_, _, rfl, iff_of_true ?_ hvalid⟩
          rw [Progresses, hl]
          exact ⟨w, l', rfl, hperm.symm, by simp, by simp, by simp, fun u hu => by simp [hu]⟩

/-! ## Runs -/

/-- Every run without a release keeps a semaphore ready. -/
theorem Ready.run (h : Ready i mode s₀) (hreach : Reachable s₀)
    (hrun : Run (fun s e s' => StepBy step s e s' ∧ Unreleased i e) s₀ τ s) : Ready i mode s := by
  refine hrun.invariant (fun _ s => Ready i mode s) h ?_
  intro τ s e s' hrun h he
  exact h.effect (hreach.run (hrun.mono fun h => h.1)).wellFormed (effect_of_step he.1) he.2

/-- Of the waiters in the list, each up takes one out. -/
theorem length_add_ups (hreach : Reachable s) (hready : Ready i mode s) (hmode : ValidMode mode)
    (hl : (s.sem_set i).wait_list = some l)
    (hrun : Run (fun s e s' => StepBy step s e s' ∧ Unreleased i e) s τ s')
    (hslept : ∀ t, .slept t i ∉ τ) (hups : ups i τ ≤ l.length) :
    ∃ l', (s'.sem_set i).wait_list = some l' ∧ l'.length + ups i τ = l.length ∧
      ∀ w ∈ l, w ∈ l' ∨ ∃ t, .handed t w i ∈ τ := by
  refine hrun.invariant
    (fun τ s' => (∀ t, .slept t i ∉ τ) → ups i τ ≤ l.length →
      ∃ l', (s'.sem_set i).wait_list = some l' ∧ l'.length + ups i τ = l.length ∧
        ∀ w ∈ l, w ∈ l' ∨ ∃ t, .handed t w i ∈ τ) ?_ ?_ hslept hups
  · exact fun _ _ => ⟨l, hl, rfl, fun w hw => .inl hw⟩
  · intro τ s₁ e s₂ hrun ih he hslept hups
    have hrun' := hrun.mono fun h => h.1
    have hw := (hreach.run hrun').wellFormed
    have hready₁ := hready.run hreach hrun
    rw [ups_cons] at hups
    obtain ⟨l', hl', hlen, hmem⟩ := ih (fun t ht => hslept t (List.mem_cons_of_mem e ht)) (by omega)
    have hmem' : ∀ w ∈ l, w ∈ l' ∨ ∃ t, .handed t w i ∈ e :: τ := fun w hw =>
      (hmem w hw).imp_right fun ⟨t, ht⟩ => ⟨t, List.mem_cons_of_mem e ht⟩
    rw [ups_cons]
    have heff := effect_of_step he.1
    have hsteady := hready₁.steady heff he.2
    -- only a commit of an up on the semaphore changes the list
    by_cases hi : e.id = some i
    case neg =>
      rw [isUp_of_other hi, (untouched_of_effect hw heff hi).sem]
      exact ⟨l', hl', hlen, hmem'⟩
    cases heff with
    | rejected | checked | woken | scheduled | sleptAgain | left =>
      exact ⟨l', hl', hlen, hmem'⟩
    | initialised | released => exact absurd (Option.some.inj hi) hsteady
    | @slept t j p junk l hpos hcount hl =>
      obtain rfl := Option.some.inj hi
      exact absurd List.mem_cons_self (hslept t)
    | @decremented t j p hpos hcount =>
      obtain rfl := Option.some.inj hi
      exact ⟨l', by simpa using hl', hlen, hmem'⟩
    | @incremented t j hpos hempty =>
      obtain rfl := Option.some.inj hi
      -- the list is empty, so there were as many ups as waiters already
      obtain rfl : l' = [] := Option.some.inj (hl'.symm.trans hempty)
      simp only [isUp, beq_self_eq_true, if_true] at hups
      simp only [List.length_nil] at hlen
      omega
    | @upFailed t j prio l hpos hl hne ho =>
      obtain rfl := Option.some.inj hi
      rw [hready₁.mode] at ho
      exact absurd hmode (wakeOrder_eq_none.1 ho)
    | @handed t w j prio l₁ l₂ hpos hl₁ hne ho =>
      obtain rfl := Option.some.inj hi
      obtain rfl : l' = l₁ := Option.some.inj (hl'.symm.trans hl₁)
      have hperm := wakeOrder_perm ho
      refine ⟨l₂, by simp, ?_, fun u hu => ?_⟩
      · have hlen' := hperm.length_eq
        simp only [isUp, beq_self_eq_true, if_true, List.length_cons] at hlen' ⊢
        omega
      · rcases hmem' u hu with hu | hu
        · rcases List.mem_cons.1 (hperm.mem_iff.2 hu) with rfl | hu
          · exact .inr ⟨t, List.mem_cons_self⟩
          · exact .inl hu
        · exact .inr hu

/-- After a successful init in whatever mode, in every run without a release, when no earlier init
of the semaphore is still under way: the checks of an up pass; its commit makes progress if and only
if there are no waiters and the count is not at its maximum, or there are waiters and the mode is
valid; and in a valid mode as many ups as there are waiters release them all. -/
theorem up_progresses_iff (hreach : Reachable s₀) (hsem : s₀.sem_set i = ⟨mode, k, ACTIVE, some []⟩)
    (hno : NoInit i s₀)
    (hrun : Run (fun s e s' => StepBy step s e s' ∧ Unreleased i e) s₀ τ s) :
    (∀ sema_id, validId sema_id = some i → check s.sem_set (.up sema_id) = some (.up i)) ∧
    (∀ t junk prio, s.pos t = .checked (.up i) →
      ∃ e s', step s (.commit t junk prio) = some (e, s') ∧
        (Progresses i t s e s' ↔ Serviceable (s.sem_set i))) ∧
    (ValidMode mode → ∀ l τ' s', (s.sem_set i).wait_list = some l →
      Run (fun s e s' => StepBy step s e s' ∧ Unreleased i e) s τ' s' → (∀ t, .slept t i ∉ τ') →
      ups i τ' = l.length →
      (s'.sem_set i).wait_list = some [] ∧ ∀ w ∈ l, ∃ t, .handed t w i ∈ τ') := by
  have hready := (ready_of_sem hsem hno).run hreach hrun
  refine ⟨fun sema_id hid => ?_, fun t junk prio hpos => ?_, ?_⟩
  · have hne : (s.sem_set i).state ≠ INACTIVE := by
      rw [hready.state]
      decide
    simp only [check, sys_mysema_up, hid, if_neg hne]
  · simp only [step, hpos]
    exact upCommit_progresses_iff hready t prio
  · intro hmode l τ' s' hl hrun' hslept hups
    have hreach' := hreach.run (hrun.mono fun h => h.1)
    obtain ⟨l', hl', hlen, hmem⟩ :=
      length_add_ups hreach' hready hmode hl hrun' hslept (Nat.le_of_eq hups)
    obtain rfl : l' = [] := List.length_eq_zero_iff.1 (by omega)
    exact ⟨hl', fun w hw => (hmem w hw).resolve_left List.not_mem_nil⟩

/-- A waiter and an up of another thread. -/
def oneWaiter : List (Action (Fin 2)) :=
  [.call 1 (.down 2), .commit 1 0 fun _ => 0, .call 0 (.up 2)]

/-- In the mode `FIFO` the up wakes the waiter. -/
theorem up_progresses_iff_fifo :
    ∃ (s s' : State (Fin 2)) (e : Event (Fin 2)), (s.sem_set 2).wait_list = some [1] ∧
      StepBy step s e s' ∧ Progresses 2 0 s e s' := by
  let l₀ : List (Action (Fin 2)) := [.call 0 (.init 2 0 FIFO), .commit 0 0 fun _ => 0]
  let r₀ := (perform step [] (boot (Fin 2)) l₀).get rfl
  let r := (perform (restrict step fun _ => Unreleased 2) [] r₀.2 oneWaiter).get rfl
  have hrun₀ : Run (StepBy step) (boot (Fin 2)) r₀.1 r₀.2 := run_of_get rfl
  have hidle : ∀ t, r₀.2.pos t = .idle := by decide
  have hno : NoInit 2 r₀.2 := fun t v m h => by cases (hidle t).symm.trans h
  have hrun : Run (StepBy (restrict step fun _ => Unreleased 2)) r₀.2 r.1 r.2 := run_of_get rfl
  obtain ⟨-, hcommit, -⟩ := up_progresses_iff ⟨_, hrun₀⟩ rfl hno (hrun.mono stepBy_restrict)
  obtain ⟨e, s', hstep, hiff⟩ := hcommit 0 0 (fun _ => 0) rfl
  exact ⟨r.2, s', e, rfl, ⟨_, hstep⟩, hiff.2 (by decide)⟩

/-- An up fails on a waiter in the mode 7. -/
theorem up_fails_in_invalid_mode :
    ¬ ∀ (s₀ s s' : State (Fin 2)) (mode : Int) (k : Nat) (τ : List (Event (Fin 2)))
      (e : Event (Fin 2)), Reachable s₀ → s₀.sem_set 2 = ⟨mode, k, ACTIVE, some []⟩ →
      NoInit 2 s₀ →
      Run (fun s e s' => StepBy step s e s' ∧ Unreleased 2 e) s₀ τ s →
      s.pos 0 = .checked (.up 2) → step s (.commit 0 0 fun _ => 0) = some (e, s') →
      Progresses 2 0 s e s' := by
  intro h
  let l₀ : List (Action (Fin 2)) := [.call 0 (.init 2 0 7), .commit 0 0 fun _ => 0]
  let r₀ := (perform step [] (boot (Fin 2)) l₀).get rfl
  let r := (perform (restrict step fun _ => Unreleased 2) [] r₀.2 oneWaiter).get rfl
  have hrun₀ : Run (StepBy step) (boot (Fin 2)) r₀.1 r₀.2 := run_of_get rfl
  have hidle : ∀ t, r₀.2.pos t = .idle := by decide
  have hno : NoInit 2 r₀.2 := fun t v m h => by cases (hidle t).symm.trans h
  have hrun : Run (StepBy (restrict step fun _ => Unreleased 2)) r₀.2 r.1 r.2 := run_of_get rfl
  obtain ⟨w, l', he, -⟩ := h r₀.2 r.2 _ 7 0 r.1 _ ⟨_, hrun₀⟩ rfl hno (hrun.mono stepBy_restrict)
    rfl rfl
  cases he

end EE516.MySemaphore
