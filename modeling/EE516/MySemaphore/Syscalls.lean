import Mathlib.Logic.Function.Basic
import Mathlib.Tactic.Simps.Basic
import EE516.Foundations.Run
import Mathlib.Algebra.Group.Nat.Defs
import Mathlib.Algebra.Group.Int.Defs

/-!
# The system calls of `mysemaphore.c`

Each of the five calls checks its arguments, the state and the mode of the semaphore without the
lock, and then commits: the section under the lock of `sys_mysema_down`,
`sys_mysema_down_userprio` and `sys_mysema_up`, the writes of `sys_mysema_init` and the write of
`sys_mysema_release`. The machine interleaves these steps of any number of threads with the steps
of the sleeping loop and with spurious wake-ups.

A waiter lies on the stack of its thread, so a wait list is a list of threads. An uninitialised
`list_head` is `none`; a step that would follow its pointers is no step of the machine.
-/

set_option autoImplicit false

namespace EE516.MySemaphore

universe u

/-! ## Data -/

/-- The waiters are served in the order of their calls. -/
abbrev FIFO : Int := 0

/-- The waiters are served by the priorities of the operating system. -/
abbrev OS : Int := 1

/-- The waiters are served by the priorities of their calls. -/
abbrev USER : Int := 2

/-- The number of semaphores. -/
abbrev MAX_SEMAPHORE : Nat := 10

/-- The greatest value of a priority; smaller values come first. -/
abbrev MAX_PRIORITY : Int := 100

/-- The state of a semaphore that was initialised. -/
abbrev ACTIVE : Int := 0x10

/-- The state of a semaphore that was released. -/
abbrev INACTIVE : Int := 0x11

/-- The values of an `unsigned int`. -/
abbrev UINT_RANGE : Nat := 2 ^ 32

/-- `struct mysemaphore` without its lock: a section under the lock is one step. -/
structure Mysemaphore (Tid : Type u) where
  mode : Int
  count : Nat
  state : Int
  wait_list : Option (List Tid)

/-- `struct mysemaphore_waiter` of a thread; `up` holds 0 or 1. -/
structure MysemaphoreWaiter where
  priority : Int
  up : Bool

/-- The states of a thread that the scheduler sees. -/
inductive TaskState where
  | TASK_RUNNING
  | TASK_UNINTERRUPTIBLE
  deriving DecidableEq, Repr

/-- An identifier that passes the first test of every call. -/
abbrev SemaId := Fin MAX_SEMAPHORE

/-- A call with its arguments. -/
inductive Call where
  | init (sema_id start_value mode : Int)
  | down (sema_id : Int)
  | down_userprio (sema_id priority : Int)
  | up (sema_id : Int)
  | release (sema_id : Int)
  deriving DecidableEq, Repr

/-- What a call whose checks passed is going to do. A down without a priority leaves the field of
its waiter unset. -/
inductive Commit where
  | init (i : SemaId) (start_value mode : Int)
  | down (i : SemaId) (priority : Option Int)
  | up (i : SemaId)
  | release (i : SemaId)
  deriving DecidableEq, Repr

/-- Where a thread is. -/
inductive Position where
  /-- in no call -/
  | idle
  /-- between the checks of a call and its commit -/
  | checked (k : Commit)
  /-- in the loop of a down, between the unlock and the return of `schedule_timeout` -/
  | sleeping (i : SemaId)
  /-- in the loop of a down, before it takes the lock again -/
  | relocking (i : SemaId)
  deriving DecidableEq, Repr

/-- The semaphores, the waiters, and what the threads are about. -/
structure State (Tid : Type u) where
  sem_set : SemaId → Mysemaphore Tid
  waiter : Tid → MysemaphoreWaiter
  task : Tid → TaskState
  pos : Tid → Position

/-- What a step was, with the calls that return in it. -/
inductive Event (Tid : Type u) where
  /-- the checks fail and the call returns -1 -/
  | rejected (t : Tid) (c : Call)
  | checked (t : Tid) (k : Commit)
  | initialised (t : Tid) (i : SemaId)
  /-- a down decrements the count and returns 0 -/
  | decremented (t : Tid) (i : SemaId)
  | slept (t : Tid) (i : SemaId)
  /-- an up increments the count and returns 0 -/
  | incremented (t : Tid) (i : SemaId)
  /-- an up removes the waiter of `w` and returns 0 -/
  | handed (t w : Tid) (i : SemaId)
  /-- an up finds waiters but no valid mode and returns -1 -/
  | upFailed (t : Tid) (i : SemaId)
  | released (t : Tid) (i : SemaId)
  /-- a wake-up that no up caused -/
  | woken (t : Tid)
  | scheduled (t : Tid) (i : SemaId)
  | sleptAgain (t : Tid) (i : SemaId)
  /-- a down finds its waiter up and returns 0 -/
  | left (t : Tid) (i : SemaId)
  deriving DecidableEq

/-- The semaphore that a commit is about. -/
def Commit.id : Commit → SemaId
  | .init i _ _ => i
  | .down i _ => i
  | .up i => i
  | .release i => i

/-- The semaphore of the call in which a thread is. -/
def Position.id : Position → Option SemaId
  | .idle => none
  | .checked k => some k.id
  | .sleeping i => some i
  | .relocking i => some i

/-- The semaphore that a step is about, if it is about one. -/
def Event.id {Tid : Type u} : Event Tid → Option SemaId
  | .rejected _ _ => none
  | .checked _ k => some k.id
  | .initialised _ i => some i
  | .decremented _ i => some i
  | .slept _ i => some i
  | .incremented _ i => some i
  | .handed _ _ i => some i
  | .upFailed _ i => some i
  | .released _ i => some i
  | .woken _ => none
  | .scheduled _ i => some i
  | .sleptAgain _ i => some i
  | .left _ i => some i

/-- `sem_set` is static storage, so everything is zero; the lists are not initialised. -/
def boot (Tid : Type u) : State Tid where
  sem_set _ := ⟨0, 0, 0, none⟩
  waiter _ := ⟨0, false⟩
  task _ := .TASK_RUNNING
  pos _ := .idle

/-! ## The checks -/

section Checks

variable {Tid : Type u} (set : SemaId → Mysemaphore Tid)

/-- The test of the identifier that all calls make first. -/
def validId (sema_id : Int) : Option SemaId :=
  if h : 0 > sema_id ∨ sema_id ≥ MAX_SEMAPHORE then none
  else some ⟨sema_id.toNat, by omega⟩

/-- The checks of `sys_mysema_init`: an active semaphore and a negative start value are refused, and
the mode is not looked at. -/
def sys_mysema_init (sema_id start_value mode : Int) : Option Commit :=
  match validId sema_id with
  | none => none
  | some i =>
    if (set i).state = ACTIVE then none
    else if start_value < 0 then none
    else some (.init i start_value mode)

/-- The priority that a waiter gets in `sys_mysema_down_userprio`. -/
def targetPriority (priority : Int) : Int :=
  if priority < 0 then 0
  else if priority > MAX_PRIORITY then MAX_PRIORITY
  else priority

/-- The checks of `sys_mysema_down_userprio`; outside of the mode `USER` it calls `sys_mysema_down`.
-/
def sys_mysema_down_userprio (sema_id priority : Int) : Option Commit :=
  match validId sema_id with
  | none => none
  | some i =>
    if (set i).state = INACTIVE then none
    -- `sys_mysema_down` makes the same checks again and does not call back in these modes
    else if (set i).mode = OS ∨ (set i).mode = FIFO then some (.down i none)
    else some (.down i (some (targetPriority priority)))

/-- The checks of `sys_mysema_down`; in the mode `USER` it calls the other down with `MAX_PRIORITY`.
-/
def sys_mysema_down (sema_id : Int) : Option Commit :=
  match validId sema_id with
  | none => none
  | some i =>
    if (set i).state = INACTIVE then none
    else if (set i).mode = USER then sys_mysema_down_userprio set sema_id MAX_PRIORITY
    else some (.down i none)

/-- The checks of `sys_mysema_up`. -/
def sys_mysema_up (sema_id : Int) : Option Commit :=
  match validId sema_id with
  | none => none
  | some i => if (set i).state = INACTIVE then none else some (.up i)

/-- `list_empty`: the head of an uninitialised list does not point to itself. -/
def list_empty : Option (List Tid) → Bool
  | some [] => true
  | _ => false

/-- The checks of `sys_mysema_release`; a semaphore with waiters is refused. -/
def sys_mysema_release (sema_id : Int) : Option Commit :=
  match validId sema_id with
  | none => none
  | some i =>
    if (set i).state = INACTIVE then none
    else if !list_empty (set i).wait_list then none
    else some (.release i)

/-- The checks of a call; none when it returns -1. -/
def check : Call → Option Commit
  | .init sema_id start_value mode => sys_mysema_init set sema_id start_value mode
  | .down sema_id => sys_mysema_down set sema_id
  | .down_userprio sema_id priority => sys_mysema_down_userprio set sema_id priority
  | .up sema_id => sys_mysema_up set sema_id
  | .release sema_id => sys_mysema_release set sema_id

/-- In the modes of `sys_mysema_down` both downs do the same, as the call in
`sys_mysema_down_userprio` says. -/
theorem sys_mysema_down_userprio_eq_down {sema_id : Int} {i : SemaId}
    (hi : validId sema_id = some i) (hm : (set i).mode = OS ∨ (set i).mode = FIFO)
    (priority : Int) :
    sys_mysema_down_userprio set sema_id priority = sys_mysema_down set sema_id := by
  have hne : (set i).mode ≠ USER := by
    rcases hm with hm | hm <;> rw [hm] <;> decide
  simp only [sys_mysema_down_userprio, sys_mysema_down, hi, if_pos hm, if_neg hne]

/-- How a call passes its checks, and the commit that it comes to. -/
inductive Passes : Call → Commit → Prop
  | init {sema_id start_value mode : Int} {i : SemaId} (hid : validId sema_id = some i)
      (hstate : (set i).state ≠ ACTIVE) (hstart : 0 ≤ start_value) :
      Passes (.init sema_id start_value mode) (.init i start_value mode)
  | down {sema_id : Int} {i : SemaId} (hid : validId sema_id = some i)
      (hstate : (set i).state ≠ INACTIVE) (hmode : (set i).mode ≠ USER) :
      Passes (.down sema_id) (.down i none)
  | downUser {sema_id : Int} {i : SemaId} (hid : validId sema_id = some i)
      (hstate : (set i).state ≠ INACTIVE) (hmode : (set i).mode = USER) :
      Passes (.down sema_id) (.down i (some (targetPriority MAX_PRIORITY)))
  | userprioDown {sema_id priority : Int} {i : SemaId} (hid : validId sema_id = some i)
      (hstate : (set i).state ≠ INACTIVE) (hmode : (set i).mode = OS ∨ (set i).mode = FIFO) :
      Passes (.down_userprio sema_id priority) (.down i none)
  | userprio {sema_id priority : Int} {i : SemaId} (hid : validId sema_id = some i)
      (hstate : (set i).state ≠ INACTIVE) (hmode : ¬ ((set i).mode = OS ∨ (set i).mode = FIFO)) :
      Passes (.down_userprio sema_id priority) (.down i (some (targetPriority priority)))
  | up {sema_id : Int} {i : SemaId} (hid : validId sema_id = some i)
      (hstate : (set i).state ≠ INACTIVE) : Passes (.up sema_id) (.up i)
  | release {sema_id : Int} {i : SemaId} (hid : validId sema_id = some i)
      (hstate : (set i).state ≠ INACTIVE) (hlist : (set i).wait_list = some []) :
      Passes (.release sema_id) (.release i)

theorem passes_userprio {sema_id priority : Int} {k : Commit}
    (h : sys_mysema_down_userprio set sema_id priority = some k) :
    Passes set (.down_userprio sema_id priority) k := by
  rw [sys_mysema_down_userprio] at h
  cases hid : validId sema_id with
  | none =>
    rw [hid] at h
    cases h
  | some i =>
    rw [hid] at h
    dsimp only at h
    by_cases hstate : (set i).state = INACTIVE
    · rw [if_pos hstate] at h
      cases h
    · rw [if_neg hstate] at h
      by_cases hmode : (set i).mode = OS ∨ (set i).mode = FIFO
      · rw [if_pos hmode] at h
        cases h
        exact .userprioDown hid hstate hmode
      · rw [if_neg hmode] at h
        cases h
        exact .userprio hid hstate hmode

/-- The checks of a call pass in one of these ways only. -/
theorem passes_of_check {c : Call} {k : Commit} (h : check set c = some k) : Passes set c k := by
  cases c with
  | init sema_id start_value mode =>
    simp only [check, sys_mysema_init] at h
    split at h
    · cases h
    · rename_i i hid
      split at h
      · cases h
      · split at h
        · cases h
        · cases h
          exact .init hid ‹_› (Int.not_lt.1 ‹_›)
  | down sema_id =>
    simp only [check, sys_mysema_down] at h
    split at h
    · cases h
    · rename_i i hid
      split at h
      · cases h
      · rename_i hstate
        split at h
        · rename_i hmode
          have hne : ¬ ((set i).mode = OS ∨ (set i).mode = FIFO) := by
            rw [hmode]
            decide
          cases passes_userprio set h with
          | userprioDown hid' hstate' hmode' =>
            obtain rfl := Option.some.inj (hid.symm.trans hid')
            exact absurd hmode' hne
          | userprio hid' =>
            obtain rfl := Option.some.inj (hid.symm.trans hid')
            exact .downUser hid hstate hmode
        · cases h
          exact .down hid hstate ‹_›
  | down_userprio sema_id priority => exact passes_userprio set h
  | up sema_id =>
    simp only [check, sys_mysema_up] at h
    split at h
    · cases h
    · split at h
      · cases h
      · cases h
        exact .up ‹_› ‹_›
  | release sema_id =>
    simp only [check, sys_mysema_release] at h
    split at h
    · cases h
    · split at h
      · cases h
      · split at h
        · cases h
        · rename_i hempty
          cases h
          refine .release ‹_› ‹_› ?_
          -- an uninitialised list does not look empty
          simp only [list_empty] at hempty
          split at hempty
          · assumption
          · simp at hempty

/-- An init only passes its checks on a semaphore that is not active. -/
theorem state_ne_active_of_check {c : Call} {i : SemaId} {v m : Int}
    (h : check set c = some (.init i v m)) : (set i).state ≠ ACTIVE := by
  cases passes_of_check set h with
  | init _ hstate _ => exact hstate

end Checks

/-! ## The commits -/

section Commits

variable {Tid : Type u}

/-- The result of a comparison function on two keys. -/
def compare (priorityA priorityB : Int) : Int :=
  if priorityA < priorityB then -1
  else if priorityA > priorityB then 1
  else 0

/-- `prio` holds the priorities of the operating system at the time of the call. -/
def OS_mode_cmp (prio : Tid → Int) (a b : Tid) : Int :=
  compare (prio a) (prio b)

/-- The comparison by the priorities of the waiters. -/
def USER_mode_cmp (waiter : Tid → MysemaphoreWaiter) (a b : Tid) : Int :=
  compare (waiter a).priority (waiter b).priority

/-- The stable sort of the kernel. -/
def list_sort (cmp : Tid → Tid → Int) (l : List Tid) : List Tid :=
  l.mergeSort fun a b => decide (cmp a b ≤ 0)

/-- The wait list in the order in which `sys_mysema_up` looks at it; none in an invalid mode. -/
def wakeOrder (mode : Int) (prio : Tid → Int) (waiter : Tid → MysemaphoreWaiter) (l : List Tid) :
    Option (List Tid) :=
  if mode = OS then some (list_sort (OS_mode_cmp prio) l)
  else if mode = USER then some (list_sort (USER_mode_cmp waiter) l)
  else if mode = FIFO then some l
  else none

variable [DecidableEq Tid]

/-- An assignment to a semaphore. -/
@[simps]
def State.setSem (s : State Tid) (i : SemaId) (m : Mysemaphore Tid) : State Tid :=
  { s with sem_set := Function.update s.sem_set i m }

/-- The thread goes to another place. -/
@[simps]
def State.setPos (s : State Tid) (t : Tid) (p : Position) : State Tid :=
  { s with pos := Function.update s.pos t p }

/-- An assignment to the state of a thread. -/
@[simps]
def State.setTask (s : State Tid) (t : Tid) (k : TaskState) : State Tid :=
  { s with task := Function.update s.task t k }

/-- An assignment to the waiter of a thread. -/
@[simps]
def State.setWaiter (s : State Tid) (t : Tid) (w : MysemaphoreWaiter) : State Tid :=
  { s with waiter := Function.update s.waiter t w }

/-- The writes of `sys_mysema_init`; the `int` becomes an `unsigned int`. -/
def initCommit (s : State Tid) (t : Tid) (i : SemaId) (start_value mode : Int) :
    Option (Event Tid × State Tid) :=
  some (.initialised t i,
    (s.setSem i ⟨mode, (start_value % UINT_RANGE).toNat, ACTIVE, some []⟩).setPos t .idle)

/-- The section under the lock of both downs up to the first unlock. The priority of a waiter that
is not set is whatever the stack holds, `junk`. -/
def downCommit (s : State Tid) (t : Tid) (i : SemaId) (priority : Option Int) (junk : Int) :
    Option (Event Tid × State Tid) :=
  let sem := s.sem_set i
  if sem.count > 0 then
    some (.decremented t i, (s.setSem i { sem with count := sem.count - 1 }).setPos t .idle)
  else
    match sem.wait_list with
    | none => none
    | some l =>
      some (.slept t i,
        (((s.setSem i { sem with wait_list := some (l ++ [t]) }).setWaiter t
          ⟨priority.getD junk, false⟩).setTask t .TASK_UNINTERRUPTIBLE).setPos t (.sleeping i))

/-- The section under the lock of `sys_mysema_up`. -/
def upCommit (s : State Tid) (t : Tid) (i : SemaId) (prio : Tid → Int) :
    Option (Event Tid × State Tid) :=
  let sem := s.sem_set i
  match sem.wait_list with
  | none => none
  | some [] =>
    some (.incremented t i,
      (s.setSem i { sem with count := (sem.count + 1) % UINT_RANGE }).setPos t .idle)
  | some (w :: l) =>
    match wakeOrder sem.mode prio s.waiter (w :: l) with
    -- an unknown mode: the call returns -1 and wakes nobody
    | none => some (.upFailed t i, s.setPos t .idle)
    -- a sorted list is not empty
    | some [] => none
    | some (w :: l) =>
      some (.handed t w i,
        (((s.setSem i { sem with wait_list := some l }).setWaiter w
          { s.waiter w with up := true }).setTask w .TASK_RUNNING).setPos t .idle)

/-- The write of `sys_mysema_release`. -/
def releaseCommit (s : State Tid) (t : Tid) (i : SemaId) : Option (Event Tid × State Tid) :=
  some (.released t i, (s.setSem i { s.sem_set i with state := INACTIVE }).setPos t .idle)

/-! ## The machine -/

/-- What the scheduler does next, with the values it finds outside the program. -/
inductive Action (Tid : Type u) where
  | call (t : Tid) (c : Call)
  | commit (t : Tid) (junk : Int) (prio : Tid → Int)
  | wake (t : Tid)
  | schedule (t : Tid)
  | relock (t : Tid)

/-- One step of the machine. A thread in `schedule_timeout` goes on once it is running again. -/
def step (s : State Tid) : Action Tid → Option (Event Tid × State Tid)
  | .call t c =>
    if s.pos t = .idle then
      match check s.sem_set c with
      | none => some (.rejected t c, s)
      | some k => some (.checked t k, s.setPos t (.checked k))
    else none
  | .commit t junk prio =>
    match s.pos t with
    | .checked (.init i start_value mode) => initCommit s t i start_value mode
    | .checked (.down i priority) => downCommit s t i priority junk
    | .checked (.up i) => upCommit s t i prio
    | .checked (.release i) => releaseCommit s t i
    | _ => none
  | .wake t => some (.woken t, s.setTask t .TASK_RUNNING)
  | .schedule t =>
    match s.pos t, s.task t with
    | .sleeping i, .TASK_RUNNING => some (.scheduled t i, s.setPos t (.relocking i))
    | _, _ => none
  | .relock t =>
    match s.pos t with
    | .relocking i =>
      if (s.waiter t).up = true then some (.left t i, s.setPos t .idle)
      else some (.sleptAgain t i, (s.setTask t .TASK_UNINTERRUPTIBLE).setPos t (.sleeping i))
    | _ => none

end Commits

end EE516.MySemaphore
