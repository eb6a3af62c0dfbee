import EE516.Philosopher.Table

/-!
# The arrays of `task1_dining_philosopher.c`

`Table.lean` has one cell for each philosopher. The program has the arrays `state[N]` and
`sem[N + 1]`, a loop of `main` that passes semaphores to `sem_init`, and a loop that numbers the
threads. Here the numbers of the philosophers are what that loop makes them, every step names the
cell that it uses, and a step that uses a cell outside its array, or a semaphore that `main` has not
initialised, is a fault: C says nothing about what happens after it, and the process stops there.
-/

set_option autoImplicit false

namespace EE516.Philosopher.Arrays

open EE516.Foundations

/-- A variable that the threads share, with the index that the program computes. -/
inductive Cell where
  | state (i : Nat)
  | mutex
  | sem (i : Nat)
  deriving DecidableEq, Repr

/-- The place of `main`. -/
inductive MainPoint where
  /-- `sem_init(&mutex, 0, 1)` -/
  | initMutex
  /-- the test of the first loop, with `sem_init(&sem[i], 0, 0)` -/
  | initSem (i : Nat)
  /-- the test of the second loop, with `p[i] = i + 1` and `pthread_create` -/
  | spawn (i : Nat)
  /-- `pthread_join`: the threads run for ever -/
  | join
  /-- after `exit(1)` -/
  | exited
  deriving DecidableEq, Repr

/-- The process. A semaphore has no value before its `sem_init`, and a philosopher no point before
its `pthread_create`. -/
structure Process where
  main : MainPoint
  mutex : Option Nat
  sem : Nat → Option Nat
  state : Nat → Activity
  point : Nat → Option Point
  crashed : Bool

/-- The global variables are 0, and `main` begins. -/
def start : Process where
  main := .initMutex
  mutex := none
  sem _ := none
  state _ := .THINKING
  point _ := none
  crashed := false

/-! ## The cells that a step uses -/

/-- The argument of a call of `test` by `i`. -/
def target (N i : Nat) : TestCall → Nat
  | .own => i
  | .left => getLeft N i
  | .right => getRight N i

/-- The cell that the philosopher `i` uses in its next step. -/
def uses (N i : Nat) : Point → Option Cell
  | .think | .eat => none
  | .takeMutex | .leaveTake | .putMutex | .leavePut => some .mutex
  | .setHungry | .setThinking => some (.state i)
  | .test c .readSelf | .test c .setEating => some (.state (target N i c))
  | .test c .readLeft => some (.state (getLeft N (target N i c)))
  | .test c .readRight => some (.state (getRight N (target N i c)))
  | .test c .post => some (.sem (target N i c))
  | .waitSem => some (.sem i)

/-- The cell lies in its array, `state[N]` or `sem[N + 1]`, and a semaphore has been passed to
`sem_init`. -/
def Cell.Valid (N : Nat) (s : Process) : Cell → Prop
  | .state i => i < N
  | .mutex => s.mutex.isSome = true
  | .sem i => i < N + 1 ∧ (s.sem i).isSome = true

instance (N : Nat) (s : Process) (c : Cell) : Decidable (c.Valid N s) :=
  match c with
  | .state i => inferInstanceAs (Decidable (i < N))
  | .mutex => inferInstanceAs (Decidable (s.mutex.isSome = true))
  | .sem i => inferInstanceAs (Decidable (i < N + 1 ∧ (s.sem i).isSome = true))

/-! ## Steps -/

/-- The thread goes to another point. -/
@[simps]
def Process.setPoint (s : Process) (i : Nat) (p : Point) : Process :=
  { s with point := Function.update s.point i (some p) }

/-- An assignment to an entry of `state`. -/
@[simps]
def Process.setState (s : Process) (i : Nat) (a : Activity) : Process :=
  { s with state := Function.update s.state i a }

/-- An assignment to an entry of `sem`. -/
@[simps]
def Process.setSem (s : Process) (i : Nat) (v : Option Nat) : Process :=
  { s with sem := Function.update s.sem i v }

/-- An assignment to `mutex`. -/
@[simps]
def Process.setMutex (s : Process) (v : Option Nat) : Process :=
  { s with mutex := v }

/-- The main thread goes to another point. -/
@[simps]
def Process.setMain (s : Process) (m : MainPoint) : Process :=
  { s with main := m }

/-- The value after `sem_wait`; none when the thread is blocked. -/
def sem_wait : Option Nat → Option Nat
  | some (v + 1) => some v
  | _ => none

/-- The value after `sem_post`. -/
def sem_post (v : Option Nat) : Option Nat :=
  v.map (· + 1)

/-- A step of `test` called as `c` by the philosopher `i`. -/
def testStep (N : Nat) (s : Process) (i : Nat) (c : TestCall) : TestPoint → Process
  | .readSelf =>
    s.setPoint i (if s.state (target N i c) = .HUNGRY then .test c .readLeft else c.next)
  | .readLeft =>
    s.setPoint i
      (if s.state (getLeft N (target N i c)) ≠ .EATING then .test c .readRight else c.next)
  | .readRight =>
    s.setPoint i
      (if s.state (getRight N (target N i c)) ≠ .EATING then .test c .setEating else c.next)
  | .setEating => (s.setState (target N i c) .EATING).setPoint i (.test c .post)
  | .post =>
    (s.setSem (target N i c) (sem_post (s.sem (target N i c)))).setPoint i c.next

/-- A step of the philosopher `i` at a point whose cell is valid; none when it is blocked. -/
def threadStep (N : Nat) (s : Process) (i : Nat) : Point → Option Process
  | .think => some (s.setPoint i .takeMutex)
  | .takeMutex => (sem_wait s.mutex).map fun v => (s.setMutex (some v)).setPoint i .setHungry
  | .setHungry => some ((s.setState i .HUNGRY).setPoint i (.test .own .readSelf))
  | .test c p => some (testStep N s i c p)
  | .leaveTake => some ((s.setMutex (sem_post s.mutex)).setPoint i .waitSem)
  | .waitSem => (sem_wait (s.sem i)).map fun v => (s.setSem i (some v)).setPoint i .eat
  | .eat => some (s.setPoint i .putMutex)
  | .putMutex => (sem_wait s.mutex).map fun v => (s.setMutex (some v)).setPoint i .setThinking
  | .setThinking => some ((s.setState i .THINKING).setPoint i (.test .left .readSelf))
  | .leavePut => some ((s.setMutex (sem_post s.mutex)).setPoint i .think)

/-- A step of `main`; `ok` is the success of `sem_init` or `pthread_create` in it. A failed
`sem_init` ends the process, a failed `pthread_create` goes unnoticed. -/
def mainStep (N : Nat) (s : Process) (ok : Bool) : Option Process :=
  match s.main with
  | .initMutex =>
    if ok then some ((s.setMutex (some 1)).setMain (.initSem 0)) else some (s.setMain .exited)
  | .initSem i =>
    if i < N then
      if ok then some ((s.setSem i (some 0)).setMain (.initSem (i + 1)))
      else some (s.setMain .exited)
    else some (s.setMain (.spawn 0))
  | .spawn i =>
    if i < N then
      if ok then some ((s.setPoint (i + 1) .think).setMain (.spawn (i + 1)))
      else some (s.setMain (.spawn (i + 1)))
    else some (s.setMain .join)
  | .join => none
  | .exited => none

/-- Which thread goes on, and for the main thread whether its call succeeds. -/
inductive Action where
  | main (ok : Bool)
  | thread (i : Nat)
  deriving DecidableEq, Repr

/-- What happened in a step: a step of `main`, of the philosopher `i` at the point `p`, or a fault
of that philosopher there. -/
inductive Event where
  | main
  | thread (i : Nat) (p : Point)
  | fault (i : Nat) (p : Point)
  deriving DecidableEq, Repr

/-- A step of the process with `MAX_PHILOSOPHER_NUM` defined as `N`. -/
def step (N : Nat) (s : Process) (a : Action) : Option (Event × Process) :=
  if s.crashed then none
  else
    match a with
    | .main ok => (mainStep N s ok).map fun s' => (.main, s')
    | .thread i =>
      match s.point i with
      | none => none
      | some p =>
        if ∀ c ∈ uses N i p, c.Valid N s then
          (threadStep N s i p).map fun s' => (.thread i p, s')
        else some (.fault i p, { s with crashed := true })

end EE516.Philosopher.Arrays
