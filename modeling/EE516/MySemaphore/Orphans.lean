import EE516.MySemaphore.Steps

/-!
# Orphaned sleepers

The checks of a call are made before the lock is taken, and `sys_mysema_init` and
`sys_mysema_release` do not take it at all. So a commit may find the semaphore in another state than
its checks did: a down may go to sleep on a released semaphore, a release may come after a down
went to sleep, and a second init may empty a wait list (`sleeper_on_released_semaphore`). In every
run in which no commit finds this (`Guarded`), all sleepers are in the wait list of an active
semaphore (`no_orphans`).
-/

set_option autoImplicit false

namespace EE516.MySemaphore

open EE516.Foundations

universe u

variable {Tid : Type u}

/-- The thread sleeps in a down on the semaphore. -/
def Asleep (s : State Tid) (t : Tid) (i : SemaId) : Prop :=
  s.pos t = .sleeping i ∧ s.task t = .TASK_UNINTERRUPTIBLE

/-- All sleepers are in the wait list of the semaphore, which is active. -/
def NoOrphans (i : SemaId) (s : State Tid) : Prop :=
  ∀ t, Asleep s t i →
    (s.sem_set i).state = ACTIVE ∧ ∃ l, (s.sem_set i).wait_list = some l ∧ t ∈ l

/-- A commit still finds what it needs: a down that goes to sleep finds the semaphore active, a
release and an init find no waiter. -/
def Guarded (i : SemaId) (s : State Tid) : Event Tid → Prop
  | .slept _ j => j = i → (s.sem_set i).state = ACTIVE
  | .released _ j => j = i → (s.sem_set i).wait_list = some []
  | .initialised _ j => j = i → (s.sem_set i).wait_list = some []
  | _ => True

instance [DecidableEq Tid] (i : SemaId) (s : State Tid) : ∀ e, Decidable (Guarded i s e)
  | .slept _ j => inferInstanceAs (Decidable (j = i → (s.sem_set i).state = ACTIVE))
  | .released _ j => inferInstanceAs (Decidable (j = i → (s.sem_set i).wait_list = some []))
  | .initialised _ j => inferInstanceAs (Decidable (j = i → (s.sem_set i).wait_list = some []))
  | .rejected _ _ | .checked _ _ | .decremented _ _ | .incremented _ _ | .handed _ _ _
  | .upFailed _ _ | .woken _ | .scheduled _ _ | .sleptAgain _ _ | .left _ _ => .isTrue trivial

/-- The semaphore was initialised, and no thread is in the loop of a down on it. Other threads may
be anywhere between the checks and the commit of a call. -/
structure Initialised [DecidableEq Tid] (i : SemaId) (s : State Tid) : Prop where
  reachable : Reachable s
  state : (s.sem_set i).state = ACTIVE
  list : (s.sem_set i).wait_list = some []
  away : ∀ t, ¬ InLoop s t i

/-- A thread in the loop whose waiter is not up is in the wait list of the active semaphore, and one
whose waiter is up has been woken. -/
structure Kept (i : SemaId) (s : State Tid) : Prop where
  waiting : ∀ t, InLoop s t i → (s.waiter t).up = false →
    (s.sem_set i).state = ACTIVE ∧ ∃ l, (s.sem_set i).wait_list = some l ∧ t ∈ l
  woken : ∀ t, InLoop s t i → (s.waiter t).up = true → s.task t = .TASK_RUNNING

section Step

variable {i : SemaId} {s s' : State Tid} {e : Event Tid}

/-- What is kept has no orphans. -/
theorem Kept.noOrphans (h : Kept i s) : NoOrphans i s := by
  rintro t ⟨hpos, htask⟩
  cases hup : (s.waiter t).up with
  | false => exact h.waiting t (Or.inl hpos) hup
  | true =>
    rw [h.woken t (Or.inl hpos) hup] at htask
    cases htask

theorem Kept.other (hk : Kept i s) (hu : Untouched i s s') : Kept i s' where
  waiting t ht hup := by
    have ht := (hu.loop t).1 ht
    rw [hu.waiter t ht] at hup
    rw [hu.sem]
    exact hk.waiting t ht hup
  woken t ht hup := by
    have ht := (hu.loop t).1 ht
    rw [hu.waiter t ht] at hup
    exact hu.running t ht (hk.woken t ht hup)

/-- A step of one thread that is in the loop neither before nor after, on an unchanged list. -/
theorem Kept.of_move (hk : Kept i s) (t : Tid) (hstate : (s'.sem_set i).state = (s.sem_set i).state)
    (hlist : (s'.sem_set i).wait_list = (s.sem_set i).wait_list) (ht : ¬ InLoop s' t i)
    (hother : ∀ u, u ≠ t → s'.pos u = s.pos u) (hwaiter : s'.waiter = s.waiter)
    (htask : s'.task = s.task) : Kept i s' := by
  have hloop : ∀ u, InLoop s' u i → InLoop s u i := by
    intro u hu
    have hut : u ≠ t := fun h => ht (h ▸ hu)
    exact (inLoop_iff_of_pos (hother u hut) i).1 hu
  refine ⟨fun u hu hup => ?_, fun u hu hup => ?_⟩
  · rw [hwaiter] at hup
    rw [hstate, hlist]
    exact hk.waiting u (hloop u hu) hup
  · rw [hwaiter] at hup
    rw [htask]
    exact hk.woken u (hloop u hu) hup

/-- With an empty wait list no thread waits, so the semaphore may change as it likes. -/
theorem Kept.of_empty (hk : Kept i s) (hempty : (s.sem_set i).wait_list = some []) (t : Tid)
    (ht : ¬ InLoop s' t i) (hother : ∀ u, u ≠ t → s'.pos u = s.pos u)
    (hwaiter : s'.waiter = s.waiter) (htask : s'.task = s.task) : Kept i s' := by
  have hloop : ∀ u, InLoop s' u i → InLoop s u i := by
    intro u hu
    have hut : u ≠ t := fun h => ht (h ▸ hu)
    exact (inLoop_iff_of_pos (hother u hut) i).1 hu
  refine ⟨fun u hu hup => ?_, fun u hu hup => ?_⟩
  · rw [hwaiter] at hup
    obtain ⟨-, l, hl, hm⟩ := hk.waiting u (hloop u hu) hup
    rw [hempty] at hl
    cases hl
    cases hm
  · rw [hwaiter] at hup
    rw [htask]
    exact hk.woken u (hloop u hu) hup

variable [DecidableEq Tid]

/-- A semaphore that was just initialised has no sleepers to keep. -/
theorem Initialised.kept (h : Initialised i s) : Kept i s where
  waiting t ht := absurd ht (h.away t)
  woken t ht := absurd ht (h.away t)

/-- A step that meets the condition keeps the sleepers of the semaphore. -/
theorem Kept.effect (hk : Kept i s) (hw : WellFormed s) (h : Effect s e s')
    (hg : Guarded i s e) : Kept i s' := by
  by_cases hi : e.id = some i
  case neg => exact hk.other (untouched_of_effect hw h hi)
  have hother : ∀ (r : State Tid) (t : Tid) (p : Position) (u : Tid), u ≠ t →
      (r.setPos t p).pos u = r.pos u := fun r t p u hu => by simp [hu]
  cases h with
  | rejected hpos hcheck => cases hi
  | woken => cases hi
  | @checked t c j hpos hcheck =>
    exact hk.of_move t rfl rfl (by simp [InLoop]) (hother _ t _) rfl rfl
  | @initialised t j v m hpos =>
    obtain rfl := Option.some.inj hi
    -- an init is for a semaphore without waiters
    exact hk.of_empty (hg rfl) t (by simp [InLoop]) (hother _ t _) rfl rfl
  | @decremented t j p hpos hcount =>
    obtain rfl := Option.some.inj hi
    exact hk.of_move t (by simp) (by simp) (by simp [InLoop]) (hother _ t _) rfl rfl
  | @incremented t j hpos hl =>
    obtain rfl := Option.some.inj hi
    exact hk.of_move t (by simp) (by simp) (by simp [InLoop]) (hother _ t _) rfl rfl
  | @upFailed t j prio l hpos hl hne ho =>
    exact hk.of_move t rfl rfl (by simp [InLoop]) (hother _ t _) rfl rfl
  | @released t j hpos =>
    obtain rfl := Option.some.inj hi
    exact hk.of_empty (hg rfl) t (by simp [InLoop]) (hother _ t _) rfl rfl
  | @left t j hpos hup =>
    exact hk.of_move t rfl rfl (by simp [InLoop]) (hother _ t _) rfl rfl
  | @slept t j p junk l hpos hcount hl =>
    obtain rfl := Option.some.inj hi
    -- the semaphore is still active at the commit of the down
    have hactive : (s.sem_set j).state = ACTIVE := hg rfl
    refine ⟨fun u hu hup => ⟨by simpa using hactive, l ++ [t], by simp, ?_⟩, fun u hu hup => ?_⟩
    · by_cases hut : u = t
      · simp [hut]
      · obtain ⟨-, l₀, hl₀, hm⟩ := hk.waiting u (by simpa [InLoop, hut] using hu)
          (by simpa [hut] using hup)
        obtain rfl : l₀ = l := Option.some.inj (hl₀.symm.trans hl)
        exact List.mem_append_left _ hm
    · have hut : u ≠ t := by
        rintro rfl
        simp at hup
      have h := hk.woken u (by simpa [InLoop, hut] using hu) (by simpa [hut] using hup)
      simpa [hut] using h
  | @handed t w j prio l l' hpos hl hne ho =>
    obtain rfl := Option.some.inj hi
    refine ⟨fun u hu hup => ?_, fun u hu hup => ?_⟩
    · have hut : u ≠ t := by
        rintro rfl
        simp [InLoop] at hu
      have huw : u ≠ w := by
        rintro rfl
        simp at hup
      obtain ⟨hactive, l₀, hl₀, hm⟩ := hk.waiting u (by simpa [InLoop, hut] using hu)
        (by simpa [huw] using hup)
      obtain rfl : l₀ = l := Option.some.inj (hl₀.symm.trans hl)
      -- the order of waking only permutes the list, and only its first thread leaves
      have hm' := (wakeOrder_perm ho).mem_iff.2 hm
      exact ⟨by simpa using hactive, l', by simp, (List.mem_cons.1 hm').resolve_left huw⟩
    · by_cases huw : u = w
      · simp [huw]
      · have hut : u ≠ t := by
          rintro rfl
          simp [InLoop] at hu
        have h := hk.woken u (by simpa [InLoop, hut] using hu) (by simpa [huw] using hup)
        simpa [huw] using h
  | @scheduled t j hpos htask =>
    obtain rfl := Option.some.inj hi
    refine ⟨fun u hu hup => ?_, fun u hu hup => ?_⟩
    · by_cases hut : u = t
      · subst hut
        exact hk.waiting u (Or.inl hpos) hup
      · exact hk.waiting u (by simpa [InLoop, hut] using hu) hup
    · by_cases hut : u = t
      · subst hut
        exact htask
      · exact hk.woken u (by simpa [InLoop, hut] using hu) hup
  | @sleptAgain t j hpos hup =>
    obtain rfl := Option.some.inj hi
    refine ⟨fun u hu hup' => ?_, fun u hu hup' => ?_⟩
    · by_cases hut : u = t
      · subst hut
        exact hk.waiting u (Or.inr hpos) hup
      · exact hk.waiting u (by simpa [InLoop, hut] using hu) hup'
    · have hut : u ≠ t := by
        rintro rfl
        rw [State.setPos_waiter, State.setTask_waiter, hup] at hup'
        cases hup'
      have h := hk.woken u (by simpa [InLoop, hut] using hu) hup'
      simpa [hut] using h

end Step

variable [DecidableEq Tid]

/-- In a run whose commits find what they need, in every order of the steps of any number of
threads, no sleeper is orphaned. -/
theorem no_orphans {i : SemaId} {s₀ s : State Tid} {τ : List (Event Tid)}
    (hstart : Initialised i s₀)
    (hrun : Run (fun s e s' => StepBy step s e s' ∧ Guarded i s e) s₀ τ s) : NoOrphans i s := by
  refine (hrun.invariant (fun _ s => Kept i s) hstart.kept fun hrun hk he => ?_).noOrphans
  have hreach := hstart.reachable.run (hrun.mono fun h => h.1)
  exact hk.effect hreach.wellFormed (effect_of_step he.1) he.2

/-- One thread goes to sleep on an active semaphore. -/
theorem no_orphans_sleeper :
    ∃ (s₀ s : State (Fin 2)) (τ : List (Event (Fin 2))), Initialised 2 s₀ ∧
      Run (fun s e s' => StepBy step s e s' ∧ Guarded 2 s e) s₀ τ s ∧ Asleep s 1 2 ∧
      NoOrphans 2 s := by
  let l₀ : List (Action (Fin 2)) := [.call 0 (.init 2 0 FIFO), .commit 0 0 fun _ => 0]
  let r₀ := (perform step [] (boot (Fin 2)) l₀).get rfl
  let l : List (Action (Fin 2)) := [.call 1 (.down 2), .commit 1 0 fun _ => 0]
  let r := (perform (restrict step (Guarded 2)) [] r₀.2 l).get rfl
  have hrun₀ : Run (StepBy step) (boot (Fin 2)) r₀.1 r₀.2 := run_of_get rfl
  have hrun : Run (StepBy (restrict step (Guarded 2))) r₀.2 r.1 r.2 := run_of_get rfl
  have hidle : ∀ t, r₀.2.pos t = .idle := by decide
  have hstart : Initialised 2 r₀.2 :=
    ⟨⟨_, hrun₀⟩, rfl, rfl, fun t => not_inLoop_of_idle (hidle t) 2⟩
  have hguarded := hrun.mono stepBy_restrict
  exact ⟨r₀.2, r.2, r.1, hstart, hguarded, ⟨rfl, rfl⟩, no_orphans hstart hguarded⟩

/-- A down whose checks passed before a release goes to sleep after it, on an inactive
semaphore. -/
theorem sleeper_on_released_semaphore :
    ¬ ∀ (s₀ s : State (Fin 2)) (τ : List (Event (Fin 2))), Initialised 2 s₀ →
      Run (StepBy step) s₀ τ s → NoOrphans 2 s := by
  intro h
  let l₀ : List (Action (Fin 2)) := [.call 0 (.init 2 0 FIFO), .commit 0 0 fun _ => 0]
  let r₀ := (perform step [] (boot (Fin 2)) l₀).get rfl
  let l : List (Action (Fin 2)) :=
    [.call 1 (.down 2), .call 0 (.release 2), .commit 0 0 fun _ => 0, .commit 1 0 fun _ => 0]
  let r := (perform step [] r₀.2 l).get rfl
  have hrun₀ : Run (StepBy step) (boot (Fin 2)) r₀.1 r₀.2 := run_of_get rfl
  have hidle : ∀ t, r₀.2.pos t = .idle := by decide
  have hstart : Initialised 2 r₀.2 :=
    ⟨⟨_, hrun₀⟩, rfl, rfl, fun t => not_inLoop_of_idle (hidle t) 2⟩
  have hasleep : Asleep r.2 1 2 := ⟨rfl, rfl⟩
  have hactive := (h r₀.2 r.2 r.1 hstart (run_of_get rfl) 1 hasleep).1
  have hinactive : (r.2.sem_set 2).state = INACTIVE := rfl
  rw [hinactive] at hactive
  cases hactive

end EE516.MySemaphore
