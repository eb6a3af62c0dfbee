import EE516.MySemaphore.WakeOrder
import EE516.SemaphoreTest.Threads

/-!
# One thread at a time holds the semaphore

`threadfunctionWithSemaphore` on the system calls of `mysemaphore.c`: the machine interleaves the
instructions of the threads with the steps of their calls and with spurious wake-ups. The thread
functions do not look at what the calls return. From the grant of a down until the commit of the up
a thread holds the semaphore, which has the count 1 if no thread holds it, and the count 0 and one
holder otherwise (`Turn`).
-/

set_option autoImplicit false

namespace EE516.SemaphoreTest

open EE516.Foundations MySemaphore

universe u

variable {Tid : Type u}

/-- The semaphore that the test uses. -/
abbrev TARGET_SEMAPHORE : Int := 2

/-- The semaphore with this identifier. -/
abbrev target : SemaId := 2

/-- The threads and the kernel. -/
structure System (Tid : Type u) where
  sem : MySemaphore.State Tid
  shared_variable : Int
  thread : Tid → Thread

/-- What happens next. -/
inductive Action (Tid : Type u) where
  /-- the next instruction of a thread -/
  | instruction (t : Tid)
  /-- a step of the kernel, or a thread that enters a call -/
  | kernel (a : MySemaphore.Action Tid)

/-- What a step was. -/
inductive Event (Tid : Type u) where
  | instruction (t : Tid)
  | kernel (e : MySemaphore.Event Tid)

/-- The call that a thread makes next. -/
def Pc.call : Pc → Option Call
  | .down => some (.down TARGET_SEMAPHORE)
  | .up => some (.up TARGET_SEMAPHORE)
  | _ => none

/-- A thread enters the calls of its function only. -/
def Allowed (s : System Tid) : MySemaphore.Action Tid → Prop
  | .call t c => (s.thread t).pc.call = some c
  | _ => True

instance (s : System Tid) : DecidablePred (Allowed s)
  | .call _ _ => inferInstanceAs (Decidable (_ = _))
  | .commit _ _ _ | .wake _ | .schedule _ | .relock _ => .isTrue trivial

/-- The thread whose call returns in the step. -/
def caller : MySemaphore.Event Tid → Option Tid
  | .rejected t _ | .initialised t _ | .decremented t _ | .incremented t _ | .handed t _ _
  | .upFailed t _ | .released t _ | .left t _ => some t
  | .checked _ _ | .slept _ _ | .woken _ | .scheduled _ _ | .sleptAgain _ _ => none

/-- A call returned to the thread. -/
def Thread.returned (th : Thread) : Thread :=
  match th.pc with
  | .down => { th with pc := .load }
  | .up => { th with pc := .next }
  | _ => th

variable [DecidableEq Tid]

/-- One step of a thread, or of the kernel for it. -/
def System.step (MAX_LOOP : Nat) (s : System Tid) : Action Tid → Option (Event Tid × System Tid)
  | .instruction t =>
    (threadfunctionWithSemaphore MAX_LOOP s.shared_variable (s.thread t)).map fun r =>
      (.instruction t,
        { s with shared_variable := r.1, thread := Function.update s.thread t r.2 })
  | .kernel a =>
    if Allowed s a then
      (MySemaphore.step s.sem a).map fun r =>
        (.kernel r.1,
          { s with
            sem := r.2
            thread :=
              match caller r.1 with
              | some t => Function.update s.thread t (s.thread t).returned
              | none => s.thread })
    else none

/-- The threads are created after `mysema_init(TARGET_SEMAPHORE, 1, FIFO)` returned. -/
structure Begins (s : System Tid) : Prop where
  started : Started target 1 FIFO s.sem
  idle : ∀ t, s.sem.pos t = .idle
  shared_variable : s.shared_variable = 0
  thread : ∀ t, s.thread t = newThread

variable {MAX_LOOP : Nat} {s s' : System Tid} {t u : Tid} {e : Event Tid}
variable {k : MySemaphore.Event Tid}

/-! ## The steps -/

/-- The threads after a step of the kernel. -/
def System.returned (s : System Tid) (k : MySemaphore.Event Tid) : Tid → Thread :=
  match caller k with
  | some t => Function.update s.thread t (s.thread t).returned
  | none => s.thread

/-- What a step can do. -/
inductive Effect (MAX_LOOP : Nat) (s : System Tid) : Event Tid → System Tid → Prop
  | instruction {t : Tid} {x : Int} {th : Thread}
      (hdoes : Does MAX_LOOP .down .up s.shared_variable (s.thread t) x th) :
      Effect MAX_LOOP s (.instruction t)
        { s with shared_variable := x, thread := Function.update s.thread t th }
  | kernel {a : MySemaphore.Action Tid} {k : MySemaphore.Event Tid} {sem : MySemaphore.State Tid}
      (hallowed : Allowed s a) (hstep : MySemaphore.step s.sem a = some (k, sem)) :
      Effect MAX_LOOP s (.kernel k) { s with sem, thread := s.returned k }

/-- What a step of the system can do. -/
theorem effect_of_step (h : StepBy (System.step MAX_LOOP) s e s') : Effect MAX_LOOP s e s' := by
  obtain ⟨a, ha⟩ := h
  cases a with
  | instruction t =>
    obtain ⟨⟨x, th⟩, hinstr, heq⟩ := Option.map_eq_some_iff.1 ha
    cases heq
    exact .instruction (does_with hinstr)
  | kernel a =>
    by_cases hallowed : Allowed s a
    · rw [System.step, if_pos hallowed] at ha
      obtain ⟨⟨k, sem⟩, hstep, heq⟩ := Option.map_eq_some_iff.1 ha
      cases heq
      exact .kernel hallowed hstep
    · rw [System.step, if_neg hallowed] at ha
      cases ha

/-! ## The holder of the semaphore -/

/-- The thread is between the two calls of a round. -/
def Pc.inside : Pc → Bool
  | .load | .add | .store | .up => true
  | .test | .down | .next | .exit => false

/-- A down of the thread was granted, and no up of it came to its commit since. -/
def Holder (s : System Tid) (t : Tid) : Prop :=
  (s.thread t).pc.inside = true ∨ (InLoop s.sem t target ∧ (s.sem.waiter t).up = true)

/-- What the call of a thread comes to when its checks pass. -/
def Pc.commit : Pc → Option Commit
  | .down => some (.down target none)
  | .up => some (.up target)
  | _ => none

/-- The calls of a thread are its down and its up. -/
theorem pc_of_commit {pc : Pc} {c : Commit} (h : pc.commit = some c) :
    (pc = .down ∧ c = .down target none) ∨ (pc = .up ∧ c = .up target) := by
  cases pc with
  | down => exact .inl ⟨rfl, (Option.some.inj h).symm⟩
  | up => exact .inr ⟨rfl, (Option.some.inj h).symm⟩
  | test | load | add | store | next | exit => cases h

/-- A thread is in the calls of its function only. -/
def Place : Position → Pc → Prop
  | .idle, _ => True
  | .checked k, pc => pc.commit = some k
  | .sleeping i, pc | .relocking i, pc => pc = .down ∧ i = target

/-- The semaphore is free and nobody holds it, or it is taken by one thread; only then others
wait. -/
structure Turn (s : System Tid) : Prop where
  ready : Ready target FIFO s.sem
  wellFormed : WellFormed s.sem
  kept : Kept target s.sem
  place : ∀ t, Place (s.sem.pos t) (s.thread t).pc
  exhausted : ∀ l, (s.sem.sem_set target).wait_list = some l → l ≠ [] →
    (s.sem.sem_set target).count = 0
  holder : ((s.sem.sem_set target).count = 1 ∧ ∀ t, ¬ Holder s t) ∨
    ((s.sem.sem_set target).count = 0 ∧ ∃ t, Holder s t ∧ ∀ u, Holder s u → u = t)

omit [DecidableEq Tid] in
/-- At most one thread holds the unit. -/
theorem Turn.eq_of_holder (h : Turn s) (ht : Holder s t) (hu : Holder s u) : u = t := by
  rcases h.holder with ⟨-, hno⟩ | ⟨-, v, -, hone⟩
  · exact absurd ht (hno t)
  · rw [hone u hu, hone t ht]

omit [DecidableEq Tid] in
/-- While the unit is held, the count is zero. -/
theorem Turn.count_of_holder (h : Turn s) (ht : Holder s t) :
    (s.sem.sem_set target).count = 0 := by
  rcases h.holder with ⟨-, hno⟩ | ⟨hcount, -⟩
  · exact absurd ht (hno t)
  · exact hcount

theorem Begins.turn (h : Begins s) : Turn s where
  ready := ready_of_sem h.started.sem fun t v m hpos => by
    rw [h.idle t] at hpos
    cases hpos
  wellFormed := h.started.reachable.wellFormed
  kept := ⟨fun t ht => absurd ht (not_inLoop_of_idle (h.idle t) target),
    fun t ht => absurd ht (not_inLoop_of_idle (h.idle t) target)⟩
  place t := by
    rw [h.idle t]
    trivial
  exhausted l hl hne := by
    rw [h.started.sem] at hl
    exact absurd (Option.some.inj hl).symm hne
  holder := by
    refine .inl ⟨by rw [h.started.sem], fun t => ?_⟩
    rintro (hin | ⟨hloop, -⟩)
    · rw [h.thread t] at hin
      cases hin
    · exact not_inLoop_of_idle (h.idle t) target hloop

omit [DecidableEq Tid] in
/-- A step that changes neither the count nor who holds the semaphore. -/
theorem holder_congr
    (h : ((s.sem.sem_set target).count = 1 ∧ ∀ t, ¬ Holder s t) ∨
      ((s.sem.sem_set target).count = 0 ∧ ∃ t, Holder s t ∧ ∀ u, Holder s u → u = t))
    (hcount : (s'.sem.sem_set target).count = (s.sem.sem_set target).count)
    (hiff : ∀ t, Holder s' t ↔ Holder s t) :
    ((s'.sem.sem_set target).count = 1 ∧ ∀ t, ¬ Holder s' t) ∨
      ((s'.sem.sem_set target).count = 0 ∧ ∃ t, Holder s' t ∧ ∀ u, Holder s' u → u = t) := by
  rw [hcount]
  simpa only [hiff] using h

theorem does_inside {x x' : Int} {th th' : Thread}
    (h : Does MAX_LOOP .down .up x th x' th') : th'.pc.inside = th.pc.inside := by
  cases h with
  | enter hpc | leave hpc | load hpc | add hpc | store hpc | next hpc =>
    simp [hpc, Pc.inside]

omit [DecidableEq Tid] in
/-- A thread that makes an instruction is in no call. -/
theorem Turn.idle_of_does {x x' : Int} {th' : Thread} (h : Turn s)
    (hdoes : Does MAX_LOOP .down .up x (s.thread t) x' th') : s.sem.pos t = .idle := by
  have hpc : (s.thread t).pc ≠ .down ∧ (s.thread t).pc ≠ .up := by
    cases hdoes <;> simp_all
  have hplace := h.place t
  cases hpos : s.sem.pos t with
  | idle => rfl
  | checked k =>
    rw [hpos] at hplace
    obtain ⟨hdown, -⟩ | ⟨hup, -⟩ := pc_of_commit hplace
    · exact absurd hdown hpc.1
    · exact absurd hup hpc.2
  | sleeping i | relocking i =>
    rw [hpos] at hplace
    exact absurd hplace.1 hpc.1

/-- An instruction leaves the turn as it is. -/
theorem Turn.instruction {x : Int} {th : Thread} (h : Turn s)
    (hdoes : Does MAX_LOOP .down .up s.shared_variable (s.thread t) x th) :
    Turn { s with shared_variable := x, thread := Function.update s.thread t th } where
  ready := h.ready
  wellFormed := h.wellFormed
  kept := h.kept
  place u := by
    by_cases hu : u = t
    · subst hu
      dsimp only
      rw [h.idle_of_does hdoes]
      trivial
    · simpa [hu] using h.place u
  exhausted := h.exhausted
  holder := by
    refine holder_congr h.holder rfl fun u => ?_
    by_cases hu : u = t
    · subst hu
      simp [Holder, does_inside hdoes]
    · simp [Holder, hu]

/-! ### The steps of the kernel -/

omit [DecidableEq Tid] in
/-- The checks of the calls of a thread pass. -/
theorem check_of_call {m : MySemaphore.State Tid} {pc : Pc} {c : Call}
    (hready : Ready target FIFO m) (h : pc.call = some c) : check m.sem_set c = pc.commit := by
  have hid : validId TARGET_SEMAPHORE = some target := rfl
  have hactive : (m.sem_set target).state ≠ INACTIVE := by
    rw [hready.state]
    decide
  have hmode : (m.sem_set target).mode ≠ USER := by
    rw [hready.mode]
    decide
  cases pc with
  | down =>
    cases h
    simp only [check, sys_mysema_down, hid, if_neg hactive, if_neg hmode, Pc.commit]
  | up =>
    cases h
    simp only [check, sys_mysema_up, hid, if_neg hactive, Pc.commit]
  | test | load | add | store | next | exit => cases h

/-- What a step of the kernel can do. -/
inductive Kernel (s : System Tid) : MySemaphore.Event Tid → System Tid → Prop
  | checked {t : Tid} {c : Commit} (hpos : s.sem.pos t = .idle)
      (hpc : (s.thread t).pc.commit = some c) :
      Kernel s (.checked t c) { s with sem := s.sem.setPos t (.checked c) }
  | decremented {t : Tid} {sem : MySemaphore.State Tid}
      (hpos : s.sem.pos t = .checked (.down target none)) (hpc : (s.thread t).pc = .down)
      (hcount : 0 < (s.sem.sem_set target).count)
      (hsem : sem = (s.sem.setSem target { s.sem.sem_set target with
        count := (s.sem.sem_set target).count - 1 }).setPos t .idle) :
      Kernel s (.decremented t target) { s with
        sem, thread := Function.update s.thread t { s.thread t with pc := .load } }
  | slept {t : Tid} {sem : MySemaphore.State Tid} {l : List Tid} {junk : Int}
      (hpos : s.sem.pos t = .checked (.down target none)) (hpc : (s.thread t).pc = .down)
      (hcount : (s.sem.sem_set target).count = 0)
      (hsem : sem = (((s.sem.setSem target { s.sem.sem_set target with
        wait_list := some (l ++ [t]) }).setWaiter t ⟨junk, false⟩).setTask t
          .TASK_UNINTERRUPTIBLE).setPos t (.sleeping target)) :
      Kernel s (.slept t target) { s with sem }
  | incremented {t : Tid} {sem : MySemaphore.State Tid}
      (hpos : s.sem.pos t = .checked (.up target)) (hpc : (s.thread t).pc = .up)
      (hlist : (s.sem.sem_set target).wait_list = some [])
      (hsem : sem = (s.sem.setSem target { s.sem.sem_set target with
        count := ((s.sem.sem_set target).count + 1) % UINT_RANGE }).setPos t .idle) :
      Kernel s (.incremented t target) { s with
        sem, thread := Function.update s.thread t { s.thread t with pc := .next } }
  | handed {t w : Tid} {sem : MySemaphore.State Tid} {l l' : List Tid}
      (hpos : s.sem.pos t = .checked (.up target)) (hpc : (s.thread t).pc = .up)
      (hlist : (s.sem.sem_set target).wait_list = some l) (hw : w ∈ l)
      (hsem : sem = (((s.sem.setSem target { s.sem.sem_set target with
        wait_list := some l' }).setWaiter w { s.sem.waiter w with up := true }).setTask w
          .TASK_RUNNING).setPos t .idle) :
      Kernel s (.handed t w target) { s with
        sem, thread := Function.update s.thread t { s.thread t with pc := .next } }
  | woken {t : Tid} : Kernel s (.woken t) { s with sem := s.sem.setTask t .TASK_RUNNING }
  | scheduled {t : Tid} (hpos : s.sem.pos t = .sleeping target)
      (htask : s.sem.task t = .TASK_RUNNING) :
      Kernel s (.scheduled t target) { s with sem := s.sem.setPos t (.relocking target) }
  | sleptAgain {t : Tid} (hpos : s.sem.pos t = .relocking target)
      (hup : (s.sem.waiter t).up = false) :
      Kernel s (.sleptAgain t target) { s with
        sem := (s.sem.setTask t .TASK_UNINTERRUPTIBLE).setPos t (.sleeping target) }
  | left {t : Tid} (hpos : s.sem.pos t = .relocking target) (hpc : (s.thread t).pc = .down)
      (hup : (s.sem.waiter t).up = true) :
      Kernel s (.left t target) { s with
        sem := s.sem.setPos t .idle
        thread := Function.update s.thread t { s.thread t with pc := .load } }

/-- No step of the kernel is a release of the semaphore. -/
theorem Kernel.unreleased (h : Kernel s k s') : Unreleased target k := by
  cases h <;> trivial

omit [DecidableEq Tid] in
/-- A thread that has passed the checks of a call is at that call. -/
theorem Turn.pc_of_checked (h : Turn s) {c : Commit} (hpos : s.sem.pos t = .checked c) :
    ((s.thread t).pc = .down ∧ c = .down target none) ∨
      ((s.thread t).pc = .up ∧ c = .up target) := by
  have hplace := h.place t
  rw [hpos] at hplace
  exact pc_of_commit hplace

omit [DecidableEq Tid] in
/-- A thread in the wait loop is at its down. -/
theorem Turn.pc_of_inLoop (h : Turn s) {i : SemaId} (hin : InLoop s.sem t i) :
    (s.thread t).pc = .down ∧ i = target := by
  have hplace := h.place t
  rcases hin with hpos | hpos <;> rw [hpos] at hplace <;> exact hplace

/-- While the semaphore has one holder at most, the kernel does one of these. -/
theorem Turn.kernel_cases {a : MySemaphore.Action Tid} {sem : MySemaphore.State Tid} (h : Turn s)
    (hallowed : Allowed s a) (hstep : MySemaphore.step s.sem a = some (k, sem)) :
    Kernel s k { s with sem, thread := s.returned k } := by
  cases MySemaphore.effect_of_step ⟨a, hstep⟩ with
  | @rejected t c hpos hcheck =>
    obtain rfl := call_of_rejected hstep
    -- the checks of an allowed call come to a commit
    rw [check_of_call h.ready hallowed] at hcheck
    have hcall : (s.thread t).pc.call = some c := hallowed
    cases hpc : (s.thread t).pc <;> simp [hpc, Pc.call, Pc.commit] at hcall hcheck
  | @checked t c d hpos hcheck =>
    obtain ⟨c', rfl, hcheck'⟩ := call_of_checked hstep
    rw [check_of_call h.ready hallowed] at hcheck'
    exact .checked hpos hcheck'
  | @initialised t i v m hpos =>
    rcases h.pc_of_checked hpos with ⟨-, hc⟩ | ⟨-, hc⟩ <;> cases hc
  | @decremented t i p hpos hcount =>
    obtain ⟨hpc, hc⟩ | ⟨-, hc⟩ := h.pc_of_checked hpos
    · cases hc
      simpa [System.returned, caller, Thread.returned, hpc] using
        Kernel.decremented hpos hpc hcount rfl
    · cases hc
  | @slept t i p junk l hpos hcount hl =>
    obtain ⟨hpc, hc⟩ | ⟨-, hc⟩ := h.pc_of_checked hpos
    · cases hc
      exact .slept hpos hpc hcount rfl
    · cases hc
  | @incremented t i hpos hl =>
    obtain ⟨-, hc⟩ | ⟨hpc, hc⟩ := h.pc_of_checked hpos
    · cases hc
    · cases hc
      simpa [System.returned, caller, Thread.returned, hpc] using
        Kernel.incremented hpos hpc hl rfl
  | @handed t w i prio l l' hpos hl hne ho =>
    obtain ⟨-, hc⟩ | ⟨hpc, hc⟩ := h.pc_of_checked hpos
    · cases hc
    · cases hc
      have hw : w ∈ l := (wakeOrder_perm ho).mem_iff.1 List.mem_cons_self
      simpa [System.returned, caller, Thread.returned, hpc] using
        Kernel.handed hpos hpc hl hw rfl
  | @upFailed t i prio l hpos hl hne ho =>
    obtain ⟨-, hc⟩ | ⟨hpc, hc⟩ := h.pc_of_checked hpos
    · cases hc
    · cases hc
      rw [h.ready.mode] at ho
      exact absurd ho (wakeOrder_ne_none (.inl rfl))
  | @released t i hpos =>
    rcases h.pc_of_checked hpos with ⟨-, hc⟩ | ⟨-, hc⟩ <;> cases hc
  | woken => exact .woken
  | @scheduled t i hpos htask =>
    obtain ⟨-, rfl⟩ := h.pc_of_inLoop (.inl hpos)
    exact .scheduled hpos htask
  | @sleptAgain t i hpos hup =>
    obtain ⟨-, rfl⟩ := h.pc_of_inLoop (.inr hpos)
    exact .sleptAgain hpos hup
  | @left t i hpos hup =>
    obtain ⟨hpc, rfl⟩ := h.pc_of_inLoop (.inr hpos)
    simpa [System.returned, caller, Thread.returned, hpc] using Kernel.left hpos hpc hup

/-- A step of the kernel keeps threads and kernel at the same call. -/
theorem Turn.place_kernel (h : Turn s) (hk : Kernel s k s') (u : Tid) :
    Place (s'.sem.pos u) (s'.thread u).pc := by
  have hplace := h.place u
  cases hk with
  | @checked t c hpos hpc =>
    by_cases hu : u = t
    · subst hu
      simpa [Place] using hpc
    · simpa [hu] using hplace
  | @decremented t sem hpos hpc hcount hsem | @incremented t sem hpos hpc hlist hsem =>
    subst hsem
    by_cases hu : u = t
    · subst hu
      simp [Place]
    · simpa [hu] using hplace
  | @handed t w sem l l' hpos hpc hlist hw hsem =>
    subst hsem
    by_cases hu : u = t
    · subst hu
      simp [Place]
    · simpa [hu] using hplace
  | @left t hpos hpc hup =>
    by_cases hu : u = t
    · subst hu
      simp [Place]
    · simpa [hu] using hplace
  | @slept t sem l junk hpos hpc hcount hsem =>
    subst hsem
    by_cases hu : u = t
    · subst hu
      simpa [Place] using hpc
    · simpa [hu] using hplace
  | woken => exact hplace
  | @scheduled t hpos htask | @sleptAgain t hpos hup =>
    by_cases hu : u = t
    · subst hu
      rw [hpos] at hplace
      simpa [Place] using hplace
    · simpa [hu] using hplace

/-- A down waits only when the count is 0, and the count grows only when nobody waits. -/
theorem Turn.exhausted_kernel (h : Turn s) (hk : Kernel s k s') {l : List Tid}
    (hl : (s'.sem.sem_set target).wait_list = some l) (hne : l ≠ []) :
    (s'.sem.sem_set target).count = 0 := by
  cases hk with
  | checked | woken | scheduled | sleptAgain | left => exact h.exhausted l hl hne
  | @decremented t sem hpos hpc hcount hsem =>
    subst hsem
    have := h.exhausted l (by simpa using hl) hne
    omega
  | @slept t sem l₀ junk hpos hpc hcount hsem =>
    subst hsem
    simpa using hcount
  | @incremented t sem hpos hpc hlist hsem =>
    subst hsem
    have hempty : l = [] := by simpa [hlist] using hl.symm
    exact absurd hempty hne
  | @handed t w sem l₀ l' hpos hpc hlist hw hsem =>
    subst hsem
    simpa using h.exhausted l₀ hlist (List.ne_nil_of_mem hw)

/-- The semaphore passes from holder to holder. -/
theorem Turn.holder_kernel (h : Turn s) (hk : Kernel s k s') :
    ((s'.sem.sem_set target).count = 1 ∧ ∀ t, ¬ Holder s' t) ∨
      ((s'.sem.sem_set target).count = 0 ∧ ∃ t, Holder s' t ∧ ∀ u, Holder s' u → u = t) := by
  cases hk with
  | @checked t c hpos hpc =>
    refine holder_congr h.holder rfl fun u => ?_
    by_cases hu : u = t
    · subst hu
      simp [Holder, InLoop, hpos]
    · simp [Holder, InLoop, hu]
  | @decremented t sem hpos hpc hcount hsem =>
    subst hsem
    -- the semaphore was free
    obtain ⟨hone, hno⟩ := h.holder.resolve_right fun hzero => by omega
    refine .inr ⟨by simp [hone], t, .inl (by simp [Pc.inside]), fun u hu => ?_⟩
    by_contra hut
    exact hno u (by simpa [Holder, InLoop, hut] using hu)
  | @slept t sem l junk hpos hpc hcount hsem =>
    subst hsem
    refine holder_congr h.holder (by simp) fun u => ?_
    by_cases hu : u = t
    · subst hu
      simp [Holder, InLoop, hpos, hpc, Pc.inside]
    · simp [Holder, InLoop, hu]
  | @incremented t sem hpos hpc hlist hsem =>
    subst hsem
    have ht : Holder s t := .inl (by simp [hpc, Pc.inside])
    refine .inl ⟨by simp [h.count_of_holder ht], fun u hu => ?_⟩
    by_cases hut : u = t
    · subst hut
      simp [Holder, InLoop, Pc.inside] at hu
    · exact hut (h.eq_of_holder ht (by simpa [Holder, InLoop, hut] using hu))
  | @handed t w sem l l' hpos hpc hlist hw hsem =>
    subst hsem
    have ht : Holder s t := .inl (by simp [hpc, Pc.inside])
    have hloop := ((h.wellFormed target l hlist).2 w hw).1
    have hwt : w ≠ t := by
      rintro rfl
      exact not_inLoop_of_checked hpos target hloop
    refine .inr ⟨by simpa using h.count_of_holder ht, w, .inr ?_, fun u hu => ?_⟩
    · simpa [InLoop, hwt] using hloop
    · by_contra huw
      by_cases hut : u = t
      · subst hut
        simp [Holder, InLoop, Pc.inside] at hu
      · exact hut (h.eq_of_holder ht (by simpa [Holder, InLoop, hut, huw] using hu))
  | @woken t => exact h.holder
  | @scheduled t hpos htask | @sleptAgain t hpos hup =>
    refine holder_congr h.holder rfl fun u => ?_
    by_cases hu : u = t
    · subst hu
      simp [Holder, InLoop, hpos]
    · simp [Holder, InLoop, hu]
  | @left t hpos hpc hup =>
    -- the down was granted when the waiter came up
    refine holder_congr h.holder rfl fun u => ?_
    by_cases hu : u = t
    · subst hu
      simp [Holder, InLoop, hpos, hpc, hup, Pc.inside]
    · simp [Holder, InLoop, hu]

/-- An allowed step of the kernel keeps the turn. -/
theorem Turn.kernel {a : MySemaphore.Action Tid} {sem : MySemaphore.State Tid} (h : Turn s)
    (hallowed : Allowed s a) (hstep : MySemaphore.step s.sem a = some (k, sem)) :
    Turn { s with sem, thread := s.returned k } := by
  have heff := MySemaphore.effect_of_step ⟨a, hstep⟩
  have hk := h.kernel_cases hallowed hstep
  have hunreleased := hk.unreleased
  exact {
    ready := h.ready.effect h.wellFormed heff hunreleased
    wellFormed := wellFormed_effect h.wellFormed heff
    kept := h.kept.effect h.wellFormed heff
      (guarded_of_steady (h.ready.steady heff hunreleased) h.ready.state)
    place := h.place_kernel hk
    exhausted := fun l hl hne => h.exhausted_kernel hk hl hne
    holder := h.holder_kernel hk }

/-- Every step keeps the turn. -/
theorem Turn.step (h : Turn s) (hstep : StepBy (System.step MAX_LOOP) s e s') : Turn s' := by
  cases effect_of_step hstep with
  | instruction hdoes => exact h.instruction hdoes
  | kernel hallowed hkernel => exact h.kernel hallowed hkernel

end EE516.SemaphoreTest
