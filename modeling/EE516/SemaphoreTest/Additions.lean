import Mathlib.Algebra.BigOperators.Ring.Finset
import EE516.SemaphoreTest.Exclusion

/-!
# No addition is lost with the semaphore

Only the thread that holds the semaphore is in `addFunction`, so the shared variable is the number
of stores. Every step but a spurious wake-up uses up some of the work of the threads, and a spurious
wake-up makes two steps of work; and as long as a thread has not exited, some step other than a
spurious wake-up is possible. So the threads end, with all their additions in the shared variable.
-/

set_option autoImplicit false

namespace EE516.SemaphoreTest

open EE516.Foundations MySemaphore

universe u

variable {Tid : Type u} {MAX_LOOP : Nat} {s s' s₀ : System Tid} {t u : Tid} {e : Event Tid}
variable {k : MySemaphore.Event Tid} {τ : List (Event Tid)} {th : Thread} {x : Int}

/-! ## The shared variable -/

/-- What holds of a thread while the shared variable is `x`. -/
def Correct (MAX_LOOP : Nat) (x : Int) (th : Thread) : Prop :=
  match th.pc with
  | .test => th.i ≤ MAX_LOOP
  | .down | .load | .up | .next => th.i < MAX_LOOP
  | .add => th.i < MAX_LOOP ∧ th.v = x
  | .store => th.i < MAX_LOOP ∧ th.v = x + 1
  | .exit => th.i = MAX_LOOP

/-- The return of a system call leaves the registers right. -/
theorem Correct.returned (h : Correct MAX_LOOP x th) : Correct MAX_LOOP x th.returned := by
  cases hpc : th.pc <;> simpa [Correct, Thread.returned, hpc] using h

theorem stored_returned (th : Thread) : th.returned.stored = th.stored := by
  cases hpc : th.pc <;> simp [Thread.returned, Thread.stored, hpc]

/-- A thread that does not hold the semaphore does not rely on the shared variable. -/
theorem Correct.outside (h : Correct MAX_LOOP x th) (hout : th.pc.inside = false) (y : Int) :
    Correct MAX_LOOP y th := by
  cases hpc : th.pc with
  | load | add | store | up => simp [hpc, Pc.inside] at hout
  | test | down | next | exit => simpa [Correct, hpc] using h

/-- The threads without the kernel. -/
def System.threads (s : System Tid) : State Tid :=
  ⟨s.shared_variable, s.thread⟩

variable [Fintype Tid]

/-- Every store added 1. -/
structure Added (MAX_LOOP : Nat) (s : System Tid) : Prop where
  shared_variable : s.shared_variable = s.threads.stores
  correct : ∀ t, Correct MAX_LOOP s.shared_variable (s.thread t)

variable [DecidableEq Tid]

theorem Begins.added (h : Begins s) : Added MAX_LOOP s where
  shared_variable := by
    have hzero : s.threads.stores = 0 :=
      Finset.sum_eq_zero fun t _ => by
        show (s.thread t).stored = 0
        rw [h.thread t]
        rfl
    rw [h.shared_variable, hzero]
    rfl
  correct t := by
    rw [h.thread t]
    exact Nat.zero_le _

/-- A step of the kernel adds nothing. -/
theorem Added.kernel (h : Added MAX_LOOP s) {sem : MySemaphore.State Tid} :
    Added MAX_LOOP { s with sem, thread := s.returned k } := by
  have hall : ∀ t, s.returned k t = s.thread t ∨ s.returned k t = (s.thread t).returned := by
    intro t
    unfold System.returned
    cases caller k with
    | none => exact .inl rfl
    | some u =>
      by_cases ht : t = u
      · subst ht
        exact .inr (Function.update_self _ _ _)
      · exact .inl (Function.update_of_ne ht _ _)
  refine ⟨h.shared_variable.trans (congrArg Int.ofNat (Finset.sum_congr rfl fun t _ => ?_)),
    fun t => ?_⟩
  · show (s.thread t).stored = (s.returned k t).stored
    rcases hall t with ht | ht <;> rw [ht]
    exact (stored_returned _).symm
  · show Correct MAX_LOOP s.shared_variable (s.returned k t)
    rcases hall t with ht | ht <;> rw [ht]
    · exact h.correct t
    · exact (h.correct t).returned

/-- An instruction of the thread whose turn it is keeps the variable right. -/
theorem Added.instruction (h : Added MAX_LOOP s) (hturn : Turn s)
    (hdoes : Does MAX_LOOP .down .up s.shared_variable (s.thread t) x th) :
    Added MAX_LOOP { s with shared_variable := x, thread := Function.update s.thread t th } := by
  have hcorrect := h.correct t
  have hshared := h.shared_variable
  obtain ⟨s₁, hs₁⟩ : ∃ s₁ : State Tid, s₁ = ⟨x, Function.update s.thread t th⟩ := ⟨_, rfl⟩
  have hstores : s₁.stores + (s.threads.thread t).stored = s.threads.stores + th.stored :=
    stores_update (by rw [hs₁]; rfl)
  rw [hs₁] at hstores
  -- the stores so far, and what the others rely on
  suffices hself : x = (⟨x, Function.update s.thread t th⟩ : State Tid).stores ∧
      Correct MAX_LOOP x th ∧ (x = s.shared_variable ∨ (s.thread t).pc.inside = true) by
    obtain ⟨hsum, ht, hkeep⟩ := hself
    refine ⟨hsum, fun u => ?_⟩
    by_cases hu : u = t
    · subst hu
      simpa using ht
    · simp only [Function.update_of_ne hu]
      rcases hkeep with rfl | hinside
      · exact h.correct u
      · refine (h.correct u).outside ?_ x
        by_contra hin
        exact hu (hturn.eq_of_holder (.inl hinside) (.inl (by simpa using hin)))
  have hthreads : (s.threads.thread t) = s.thread t := rfl
  rw [hthreads] at hstores
  generalize (⟨x, Function.update s.thread t th⟩ : State Tid).stores = n at hstores ⊢
  cases hdoes with
  | enter hpc hi =>
    simp [Thread.stored, hpc] at hstores
    exact ⟨by omega, hi, .inl rfl⟩
  | leave hpc hi =>
    simp only [Correct, hpc] at hcorrect
    simp [Thread.stored, hpc] at hstores
    exact ⟨by omega, by simp only [Correct]; omega, .inl rfl⟩
  | load hpc =>
    simp only [Correct, hpc] at hcorrect
    simp [Thread.stored, hpc] at hstores
    exact ⟨by omega, ⟨hcorrect, rfl⟩, .inl rfl⟩
  | add hpc =>
    simp only [Correct, hpc] at hcorrect
    simp [Thread.stored, hpc] at hstores
    exact ⟨by omega, ⟨hcorrect.1, by simp [hcorrect.2]⟩, .inl rfl⟩
  | store hpc =>
    simp only [Correct, hpc] at hcorrect
    simp [Thread.stored, hpc] at hstores
    exact ⟨by omega, hcorrect.1, .inr (by simp [hpc, Pc.inside])⟩
  | next hpc =>
    simp only [Correct, hpc] at hcorrect
    simp [Thread.stored, hpc] at hstores
    exact ⟨by omega, Nat.succ_le_of_lt hcorrect, .inl rfl⟩

/-- Every step keeps the shared variable at the number of stores. -/
theorem Added.step (h : Added MAX_LOOP s) (hturn : Turn s)
    (hstep : StepBy (System.step MAX_LOOP) s e s') : Added MAX_LOOP s' := by
  cases effect_of_step hstep with
  | instruction hdoes => exact h.instruction hturn hdoes
  | kernel hallowed hkernel => exact h.kernel

/-! ## The work of the threads -/

/-- A wake-up that no up caused. -/
def Event.spurious : Event Tid → Bool
  | .kernel (.woken _) => true
  | _ => false

/-- The steps that a thread has to make, 11 in a round if its down waits. A sleeping thread that was
woken in vain has two more to make. -/
def System.work (MAX_LOOP : Nat) (s : System Tid) (t : Tid) : Nat :=
  let rounds := 11 * (MAX_LOOP - (s.thread t).i)
  match (s.thread t).pc with
  | .test => rounds + 1
  | .down =>
    match s.sem.pos t with
    | .idle => rounds
    | .checked _ => rounds - 1
    | .sleeping _ =>
      if (s.sem.waiter t).up = false ∧ s.sem.task t = .TASK_RUNNING then rounds else rounds - 2
    | .relocking _ => if (s.sem.waiter t).up = false then rounds - 1 else rounds - 3
  | .load => rounds - 4
  | .add => rounds - 5
  | .store => rounds - 6
  | .up => if s.sem.pos t = .idle then rounds - 7 else rounds - 8
  | .next => rounds - 9
  | .exit => 0

omit [Fintype Tid] [DecidableEq Tid] in
theorem work_congr (hthread : s'.thread u = s.thread u) (hpos : s'.sem.pos u = s.sem.pos u)
    (hwaiter : s'.sem.waiter u = s.sem.waiter u) (htask : s'.sem.task u = s.sem.task u) :
    s'.work MAX_LOOP u = s.work MAX_LOOP u := by
  simp only [System.work, hthread, hpos, hwaiter, htask]

/-- The step uses up work of the thread, and adds none for the others. -/
def Works (MAX_LOOP : Nat) (s s' : System Tid) (t : Tid) : Prop :=
  s'.work MAX_LOOP t < s.work MAX_LOOP t ∧
    ∀ u, u ≠ t → s'.work MAX_LOOP u ≤ s.work MAX_LOOP u

omit [Fintype Tid] in
/-- An instruction does some of the work of its thread. -/
theorem works_instruction (hturn : Turn s)
    (hcorrect : Correct MAX_LOOP s.shared_variable (s.thread t))
    (hdoes : Does MAX_LOOP .down .up s.shared_variable (s.thread t) x th) :
    Works MAX_LOOP s
      { s with shared_variable := x, thread := Function.update s.thread t th } t := by
  have hidle := hturn.idle_of_does hdoes
  refine ⟨?_, fun u hu => le_of_eq (work_congr (by simp [hu]) rfl rfl rfl)⟩
  cases hdoes with
  | enter hpc hi => simp [System.work, hpc, hidle]
  | leave hpc hi => simp [System.work, hpc]
  | load hpc | add hpc | store hpc | next hpc =>
    simp only [Correct, hpc] at hcorrect
    simp [System.work, hpc, hidle]
    omega

omit [Fintype Tid] in
/-- A step of the kernel that is no spurious wake-up does some of the work of a thread. -/
theorem works_kernel (hturn : Turn s)
    (hcorrect : ∀ t, Correct MAX_LOOP s.shared_variable (s.thread t))
    (hk : Kernel s k s') (hspurious : (Event.kernel k).spurious = false) :
    ∃ t, Works MAX_LOOP s s' t := by
  cases hk with
  | @checked t c hpos hpc =>
    refine ⟨t, ?_, fun u hu => le_of_eq (work_congr rfl (by simp [hu]) rfl rfl)⟩
    have ht := hcorrect t
    rcases pc_of_commit hpc with ⟨hpc, -⟩ | ⟨hpc, -⟩ <;>
    · simp only [Correct, hpc] at ht
      simp [System.work, hpc, hpos]
      omega
  | @decremented t sem hpos hpc hcount hsem | @incremented t sem hpos hpc hlist hsem =>
    subst hsem
    refine ⟨t, ?_, fun u hu => le_of_eq (work_congr (by simp [hu]) (by simp [hu]) rfl rfl)⟩
    have ht := hcorrect t
    simp only [Correct, hpc] at ht
    simp [System.work, hpc, hpos]
    omega
  | @slept t sem l junk hpos hpc hcount hsem =>
    subst hsem
    refine ⟨t, ?_, fun u hu => le_of_eq
      (work_congr rfl (by simp [hu]) (by simp [hu]) (by simp [hu]))⟩
    have ht := hcorrect t
    simp only [Correct, hpc] at ht
    simp [System.work, hpc, hpos]
    omega
  | @handed t w sem l l' hpos hpc hlist hw hsem =>
    subst hsem
    have hloop := ((hturn.wellFormed target l hlist).2 w hw).1
    have hdown := (hturn.pc_of_inLoop hloop).1
    have hup := ((hturn.wellFormed target l hlist).2 w hw).2
    -- the waiter is in its loop, and the thread of the up is not
    have hwt : w ≠ t := by
      rintro rfl
      exact not_inLoop_of_checked hpos target hloop
    refine ⟨t, ?_, fun u hu => ?_⟩
    · have ht := hcorrect t
      simp only [Correct, hpc] at ht
      simp [System.work, hpc, hpos]
      omega
    · by_cases huw : u = w
      · -- the waiter comes up, and its thread does not go back to sleep any more
        subst huw
        rcases hloop with hposw | hposw
        · simp [System.work, hu, hdown, hposw, hup]
          split <;> omega
        · simp [System.work, hu, hdown, hposw, hup]
          omega
      · exact le_of_eq (work_congr (by simp [hu]) (by simp [hu]) (by simp [huw]) (by simp [huw]))
  | woken => cases hspurious
  | @scheduled t hpos htask =>
    refine ⟨t, ?_, fun u hu => le_of_eq (work_congr rfl (by simp [hu]) rfl rfl)⟩
    have ht := hcorrect t
    have hdown := (hturn.pc_of_inLoop (.inl hpos)).1
    simp only [Correct, hdown] at ht
    cases hup : (s.sem.waiter t).up <;>
    · simp [System.work, hdown, hpos, htask, hup]
      omega
  | @sleptAgain t hpos hup =>
    refine ⟨t, ?_, fun u hu => le_of_eq (work_congr rfl (by simp [hu]) rfl (by simp [hu]))⟩
    have ht := hcorrect t
    have hdown := (hturn.pc_of_inLoop (.inr hpos)).1
    simp only [Correct, hdown] at ht
    simp [System.work, hdown, hpos, hup]
    omega
  | @left t hpos hpc hup =>
    refine ⟨t, ?_, fun u hu => le_of_eq (work_congr (by simp [hu]) (by simp [hu]) rfl rfl)⟩
    have ht := hcorrect t
    simp only [Correct, hpc] at ht
    simp [System.work, hpc, hpos, hup]
    omega

/-- The work of all threads. -/
def System.allWork (MAX_LOOP : Nat) (s : System Tid) : Nat :=
  ∑ t, s.work MAX_LOOP t

omit [DecidableEq Tid] in
/-- When one thread does some of its work, less is left of all. -/
theorem Works.lt (h : Works MAX_LOOP s s' t) : s'.allWork MAX_LOOP < s.allWork MAX_LOOP := by
  refine Finset.sum_lt_sum (fun u _ => ?_) ⟨t, Finset.mem_univ t, h.1⟩
  by_cases hu : u = t
  · rw [hu]
    exact h.1.le
  · exact h.2 u hu

/-- Every step but a spurious wake-up leaves less work. -/
theorem allWork_step (hturn : Turn s) (hadded : Added MAX_LOOP s)
    (hstep : StepBy (System.step MAX_LOOP) s e s') (hspurious : e.spurious = false) :
    s'.allWork MAX_LOOP < s.allWork MAX_LOOP := by
  cases effect_of_step hstep with
  | @instruction t x th hdoes =>
    exact (works_instruction hturn (hadded.correct t) hdoes).lt
  | kernel hallowed hkernel =>
    obtain ⟨t, hworks⟩ := works_kernel hturn hadded.correct
      (hturn.kernel_cases hallowed hkernel) hspurious
    exact hworks.lt

/-- A thread that wakes in vain looks at its waiter and goes to sleep again. -/
theorem allWork_spurious (hturn : Turn s) (hstep : StepBy (System.step MAX_LOOP) s e s')
    (hspurious : e.spurious = true) : s'.allWork MAX_LOOP ≤ s.allWork MAX_LOOP + 2 := by
  cases effect_of_step hstep with
  | instruction hdoes => cases hspurious
  | kernel hallowed hkernel =>
    have hk := hturn.kernel_cases hallowed hkernel
    generalize ({ s with sem := _, thread := _ } : System Tid) = s'' at hk ⊢
    cases hk with
    | @woken t =>
      have hle : ∀ u, ({ s with sem := s.sem.setTask t .TASK_RUNNING } : System Tid).work
          MAX_LOOP u ≤ s.work MAX_LOOP u + if u = t then 2 else 0 := by
        intro u
        by_cases hu : u = t
        · subst hu
          rw [if_pos rfl]
          cases hpc : (s.thread u).pc with
          | down =>
            cases hpos : s.sem.pos u with
            | sleeping i =>
              simp [System.work, hpc, hpos]
              split <;> split <;> omega
            | idle | checked c | relocking i => simp [System.work, hpc, hpos]
          | test | load | add | store | up | next | exit => simp [System.work, hpc]
        · rw [if_neg hu, Nat.add_zero]
          exact le_of_eq (work_congr rfl rfl rfl (by simp [hu]))
      refine (Finset.sum_le_sum fun u _ => hle u).trans (le_of_eq ?_)
      rw [Finset.sum_add_distrib, Finset.sum_ite_eq', if_pos (Finset.mem_univ t)]
      rfl
    | checked | decremented | slept | incremented | handed | scheduled | sleptAgain | left =>
      cases hspurious

theorem Begins.allWork (h : Begins s) :
    s.allWork MAX_LOOP = Fintype.card Tid * (11 * MAX_LOOP + 1) := by
  refine Finset.sum_const_nat fun t _ => ?_
  simp [System.work, h.thread t, newThread]

/-! ## Progress -/

section Progress

omit [Fintype Tid]

/-- A step of the program, and no spurious wake-up, is possible. -/
def Enabled (MAX_LOOP : Nat) (s : System Tid) : Prop :=
  ∃ e s', StepBy (System.step MAX_LOOP) s e s' ∧ e.spurious = false

/-- A thread that has an instruction can go on. -/
theorem enabled_instruction {r : Int × Thread}
    (h : threadfunctionWithSemaphore MAX_LOOP s.shared_variable (s.thread t) = some r) :
    Enabled MAX_LOOP s :=
  ⟨.instruction t, _, ⟨.instruction t, by rw [System.step, h]; rfl⟩, rfl⟩

/-- An allowed step of the kernel that is no spurious wake-up lets the system go on. -/
theorem enabled_kernel {a : MySemaphore.Action Tid} {sem : MySemaphore.State Tid}
    (hstep : MySemaphore.step s.sem a = some (k, sem)) (hallowed : Allowed s a)
    (hspurious : (Event.kernel k).spurious = false) : Enabled MAX_LOOP s :=
  ⟨.kernel k, _, ⟨.kernel a, by rw [System.step, if_pos hallowed, hstep]; rfl⟩, hspurious⟩

/-- Only a wake-up is spurious. -/
theorem not_spurious {m m' : MySemaphore.State Tid} {a : MySemaphore.Action Tid}
    (hstep : MySemaphore.step m a = some (k, m')) (hwake : ∀ t, a ≠ .wake t) :
    (Event.kernel k).spurious = false := by
  cases k with
  | woken t => exact absurd (wake_of_woken hstep) (hwake t)
  | _ => rfl

/-- A thread that is about to call enters the call. -/
theorem enabled_call {c : Call} {d : Commit} (hturn : Turn s) (hpos : s.sem.pos t = .idle)
    (hcall : (s.thread t).pc.call = some c) (hcommit : (s.thread t).pc.commit = some d) :
    Enabled MAX_LOOP s := by
  have hstep : MySemaphore.step s.sem (.call t c) =
      some (.checked t d, s.sem.setPos t (.checked d)) := by
    simp only [MySemaphore.step, if_pos hpos, check_of_call hturn.ready hcall, hcommit]
  exact enabled_kernel hstep hcall rfl

/-- A thread outside the loop of a down goes on. -/
theorem enabled_outside (hturn : Turn s) (hexit : (s.thread t).pc ≠ .exit)
    (hout : ∀ i, ¬ InLoop s.sem t i) : Enabled MAX_LOOP s := by
  cases hpos : s.sem.pos t with
  | sleeping i => exact absurd (.inl hpos) (hout i)
  | relocking i => exact absurd (.inr hpos) (hout i)
  | checked c =>
    rcases hturn.pc_of_checked hpos with ⟨hpc, rfl⟩ | ⟨hpc, rfl⟩
    · by_cases hcount : 0 < (s.sem.sem_set target).count
      · exact enabled_kernel (a := .commit t 0 fun _ => 0)
          (by simp only [MySemaphore.step, hpos, downCommit, if_pos hcount]; rfl) trivial rfl
      · obtain ⟨l, hl⟩ := Option.ne_none_iff_exists'.1 hturn.ready.list
        exact enabled_kernel (a := .commit t 0 fun _ => 0)
          (by simp only [MySemaphore.step, hpos, downCommit, if_neg hcount, hl]; rfl) trivial rfl
    · obtain ⟨k, m, hup, -⟩ := upCommit_progresses_iff hturn.ready t fun _ => 0
      have hstep : MySemaphore.step s.sem (.commit t 0 fun _ => 0) = some (k, m) := by
        simp only [MySemaphore.step, hpos, hup]
      exact enabled_kernel hstep trivial (not_spurious hstep (by simp))
  | idle =>
    cases hpc : (s.thread t).pc with
    | exit => exact absurd hpc hexit
    | down => exact enabled_call hturn hpos (by rw [hpc]; rfl) (by rw [hpc]; rfl)
    | up => exact enabled_call hturn hpos (by rw [hpc]; rfl) (by rw [hpc]; rfl)
    | test | load | add | store | next =>
      obtain ⟨r, hr⟩ : ∃ r, threadfunctionWithSemaphore MAX_LOOP s.shared_variable
          (s.thread t) = some r := by
        simp only [threadfunctionWithSemaphore, addFunction, hpc]
        exact ⟨_, rfl⟩
      exact enabled_instruction hr

/-- A thread whose down was granted goes on. -/
theorem enabled_of_holder (hturn : Turn s) (ht : Holder s t) : Enabled MAX_LOOP s := by
  rcases ht with hinside | ⟨hpos | hpos, hup⟩
  · refine enabled_outside hturn (t := t) ?_ fun i hin => ?_
    · intro hexit
      simp [hexit, Pc.inside] at hinside
    · simp [(hturn.pc_of_inLoop hin).1, Pc.inside] at hinside
  · have htask := hturn.kept.woken t (.inl hpos) hup
    have hstep : MySemaphore.step s.sem (.schedule t) =
        some (.scheduled t target, s.sem.setPos t (.relocking target)) := by
      simp only [MySemaphore.step, hpos, htask]
    exact enabled_kernel hstep trivial rfl
  · have hstep : MySemaphore.step s.sem (.relock t) =
        some (.left t target, s.sem.setPos t .idle) := by
      simp only [MySemaphore.step, hpos, if_pos hup]
    exact enabled_kernel hstep trivial rfl

omit [DecidableEq Tid] in
/-- A thread that waits in the list waits for a holder. -/
theorem Turn.exists_holder (h : Turn s) (hin : InLoop s.sem t target) : ∃ u, Holder s u := by
  cases hup : (s.sem.waiter t).up with
  | true => exact ⟨t, .inr ⟨hin, hup⟩⟩
  | false =>
    obtain ⟨-, l, hl, hmem⟩ := h.kept.waiting t hin hup
    have hzero := h.exhausted l hl (List.ne_nil_of_mem hmem)
    rcases h.holder with ⟨hone, -⟩ | ⟨-, u, hu, -⟩
    · omega
    · exact ⟨u, hu⟩

/-- As long as a thread has not exited, some step is possible. -/
theorem Turn.enabled (h : Turn s) (hexit : (s.thread t).pc ≠ .exit) : Enabled MAX_LOOP s := by
  by_cases hin : InLoop s.sem t target
  · obtain ⟨u, hu⟩ := h.exists_holder hin
    exact enabled_of_holder h hu
  · refine enabled_outside h hexit fun i hi => hin ?_
    obtain rfl := (h.pc_of_inLoop hi).2
    exact hi

end Progress

/-! ## Runs -/

/-- Both invariants hold in every run. -/
theorem turn_added_of_run (hstart : Begins s₀)
    (hrun : Run (StepBy (System.step MAX_LOOP)) s₀ τ s) : Turn s ∧ Added MAX_LOOP s :=
  hrun.invariant (fun _ s => Turn s ∧ Added MAX_LOOP s) ⟨hstart.turn, hstart.added⟩
    fun _ h hstep => ⟨h.1.step hstep, h.2.step h.1 hstep⟩

omit [DecidableEq Tid] in
/-- After the last thread has exited, every addition is in the shared variable, and the semaphore
can be released. -/
theorem result_of_exit (hturn : Turn s) (hadded : Added MAX_LOOP s)
    (hexit : ∀ t, (s.thread t).pc = .exit) :
    s.shared_variable = Fintype.card Tid * MAX_LOOP ∧
      check s.sem.sem_set (.release TARGET_SEMAPHORE) = some (.release target) := by
  constructor
  · have hall : s.threads.stores = Fintype.card Tid * MAX_LOOP := by
      refine Finset.sum_const_nat fun t _ => ?_
      have hcorrect := hadded.correct t
      simp only [Correct, hexit t] at hcorrect
      show (s.thread t).stored = MAX_LOOP
      simp [Thread.stored, hexit t, hcorrect]
    rw [hadded.shared_variable, hall, Nat.cast_mul]
  · obtain ⟨l, hl⟩ := Option.ne_none_iff_exists'.1 hturn.ready.list
    have hempty : l = [] := by
      refine List.eq_nil_iff_forall_not_mem.2 fun t ht => ?_
      have hpc := (hturn.pc_of_inLoop ((hturn.wellFormed target l hl).2 t ht).1).1
      rw [hexit t] at hpc
      cases hpc
    have hid : validId TARGET_SEMAPHORE = some target := rfl
    have hactive : (s.sem.sem_set target).state ≠ INACTIVE := by
      rw [hturn.ready.state]
      decide
    simp [check, sys_mysema_release, hid, hactive, hl, hempty, list_empty]

/-- With the semaphore, in every order of the steps: at most one thread is in `addFunction`, and the
shared variable is the number of stores. Besides the spurious wake-ups there are at most
`11 * MAX_LOOP + 1` steps for each thread and two for each of those, and some step is possible until
all threads have exited. Then every addition is in the shared variable, and the release passes its
checks. -/
theorem results_with_semaphore (hstart : Begins s₀)
    (hrun : Run (StepBy (System.step MAX_LOOP)) s₀ τ s) :
    (∀ t u, (s.thread t).pc.inside = true → (s.thread u).pc.inside = true → t = u) ∧
    s.shared_variable = ∑ t, ((s.thread t).stored : Int) ∧
    τ.countP (fun e => !e.spurious) ≤
      Fintype.card Tid * (11 * MAX_LOOP + 1) + 2 * τ.countP Event.spurious ∧
    ((∃ t, (s.thread t).pc ≠ .exit) →
      ∃ e s', StepBy (System.step MAX_LOOP) s e s' ∧ e.spurious = false) ∧
    ((∀ t, (s.thread t).pc = .exit) →
      s.shared_variable = Fintype.card Tid * MAX_LOOP ∧
        check s.sem.sem_set (.release TARGET_SEMAPHORE) = some (.release target)) := by
  obtain ⟨hturn, hadded⟩ := turn_added_of_run hstart hrun
  refine ⟨fun t u ht hu => (hturn.eq_of_holder (.inl ht) (.inl hu)).symm, ?_, ?_, ?_, ?_⟩
  · rw [hadded.shared_variable, State.stores, Nat.cast_sum]
    rfl
  · have hle := hrun.countP_le (System.allWork MAX_LOOP) Event.spurious 2
      (fun hrun hstep hfree => by
        obtain ⟨hturn, hadded⟩ := turn_added_of_run hstart hrun
        exact allWork_step hturn hadded hstep hfree)
      (fun hrun hstep hfree =>
        allWork_spurious (turn_added_of_run hstart hrun).1 hstep hfree)
    rw [hstart.allWork] at hle
    omega
  · rintro ⟨t, ht⟩
    exact hturn.enabled ht
  · exact result_of_exit hturn hadded

/-- Two threads of one round each; the second one waits for the first one. -/
theorem results_with_semaphore_two :
    ∃ (s₀ s : System (Fin 2)) (τ : List (Event (Fin 2))), Begins s₀ ∧
      Run (StepBy (System.step 1)) s₀ τ s ∧ s.shared_variable = 2 := by
  let l₀ : List (MySemaphore.Action (Fin 2)) :=
    [.call 0 (.init 2 1 FIFO), .commit 0 0 fun _ => 0]
  let r₀ := (perform MySemaphore.step [] (boot (Fin 2)) l₀).get rfl
  have hrun₀ : Run (StepBy MySemaphore.step) (boot (Fin 2)) r₀.1 r₀.2 := run_of_get rfl
  let s₀ : System (Fin 2) := ⟨r₀.2, 0, fun _ => newThread⟩
  have hstart : Begins s₀ :=
    ⟨⟨⟨_, hrun₀⟩, rfl, by decide⟩, by decide, rfl, fun _ => rfl⟩
  let twoRounds : List (Action (Fin 2)) :=
    [.instruction 0, .kernel (.call 0 (.down 2)), .kernel (.commit 0 0 fun _ => 0), .instruction 0,
      .instruction 1, .kernel (.call 1 (.down 2)), .kernel (.commit 1 0 fun _ => 0),
      .instruction 0, .instruction 0, .kernel (.call 0 (.up 2)), .kernel (.commit 0 0 fun _ => 0),
      .instruction 0, .instruction 0, .kernel (.schedule 1), .kernel (.relock 1), .instruction 1,
      .instruction 1, .instruction 1, .kernel (.call 1 (.up 2)), .kernel (.commit 1 0 fun _ => 0),
      .instruction 1, .instruction 1]
  let r := (perform (System.step 1) [] s₀ twoRounds).get rfl
  have hrun : Run (StepBy (System.step 1)) s₀ r.1 r.2 := run_of_get rfl
  obtain ⟨-, -, -, -, hresult⟩ := results_with_semaphore hstart hrun
  exact ⟨s₀, r.2, r.1, hstart, hrun, (hresult (by decide)).1⟩

end EE516.SemaphoreTest
