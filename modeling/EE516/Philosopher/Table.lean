import Mathlib.Logic.Function.Basic
import Mathlib.Tactic.Simps.Basic
import EE516.Foundations.Run

/-!
# The dining philosophers of `task1_dining_philosopher.c`

The philosophers `1, …, N` run `think`, `take_forks`, `eat` and `put_forks` for ever. One step of a
thread is one access to `state[]` or one operation on a semaphore; the threads interleave in any
order. `sem_wait` on a semaphore with the value 0 is no step: the thread is blocked.
-/

set_option autoImplicit false

namespace EE516.Philosopher

/-- The number of the philosopher on the left of `i` at a table of `N`. -/
def getLeft (N i : Nat) : Nat :=
  if i = 1 then N else i - 1

/-- The number of the philosopher on the right of `i` at a table of `N`. -/
def getRight (N i : Nat) : Nat :=
  if i = N then 1 else i + 1

/-- The number of a philosopher at a table of `N`. -/
def Id (N : Nat) := { i : Nat // 1 ≤ i ∧ i ≤ N }
  deriving DecidableEq

section Ring

variable {N : Nat}

/-- The left neighbour. -/
def Id.left (i : Id N) : Id N :=
  ⟨getLeft N i.val, by
    obtain ⟨i, h₁, h₂⟩ := i
    simp only [getLeft]
    split <;> omega⟩

/-- The right neighbour. -/
def Id.right (i : Id N) : Id N :=
  ⟨getRight N i.val, by
    obtain ⟨i, h₁, h₂⟩ := i
    simp only [getRight]
    split <;> omega⟩

@[simp] theorem Id.left_right (i : Id N) : i.left.right = i := by
  obtain ⟨i, h₁, h₂⟩ := i
  apply Subtype.ext
  simp only [Id.left, Id.right, getLeft, getRight]
  split <;> split <;> omega

@[simp] theorem Id.right_left (i : Id N) : i.right.left = i := by
  obtain ⟨i, h₁, h₂⟩ := i
  apply Subtype.ext
  simp only [Id.left, Id.right, getLeft, getRight]
  split <;> split <;> omega

/-- With two philosophers at least, nobody is next to himself. -/
theorem Id.right_ne (hN : 2 ≤ N) (i : Id N) : i.right ≠ i := by
  obtain ⟨i, h₁, h₂⟩ := i
  intro h
  have h := congrArg Subtype.val h
  simp only [Id.right, getRight] at h
  split at h <;> omega

/-- At a table of at least two the left neighbour is somebody else. -/
theorem Id.left_ne (hN : 2 ≤ N) (i : Id N) : i.left ≠ i := by
  intro h
  have hr := congrArg Id.right h
  rw [Id.left_right] at hr
  exact Id.right_ne hN i hr.symm

end Ring

/-! ## The program -/

/-- What a philosopher is doing, as `state` says. -/
inductive Activity where
  | THINKING
  | HUNGRY
  | EATING
  deriving DecidableEq, Repr

/-- The three calls of `test`: for itself in `take_forks`, for the neighbours in `put_forks`. -/
inductive TestCall where
  | own
  | left
  | right
  deriving DecidableEq, Repr

/-- The next access in `test(i)`. -/
inductive TestPoint where
  /-- reads `state[i]` -/
  | readSelf
  /-- reads `state[getLeft(i)]` -/
  | readLeft
  /-- reads `state[getRight(i)]` -/
  | readRight
  /-- `state[i] = EATING` -/
  | setEating
  /-- `sem_post(&sem[i])` -/
  | post
  deriving DecidableEq, Repr

/-- The next step of a thread. -/
inductive Point where
  | think
  /-- `sem_wait(&mutex)` in `take_forks` -/
  | takeMutex
  /-- `state[i] = HUNGRY` -/
  | setHungry
  | test (c : TestCall) (p : TestPoint)
  /-- `sem_post(&mutex)` in `take_forks` -/
  | leaveTake
  /-- `sem_wait(&sem[i])` -/
  | waitSem
  | eat
  /-- `sem_wait(&mutex)` in `put_forks` -/
  | putMutex
  /-- `state[i] = THINKING` -/
  | setThinking
  /-- `sem_post(&mutex)` in `put_forks` -/
  | leavePut
  deriving DecidableEq, Repr

/-- The shared variables, and the points of the threads. -/
structure State (N : Nat) where
  mutex : Nat
  sem : Id N → Nat
  state : Id N → Activity
  point : Id N → Point

/-- Before the threads start: `mutex` is 1, everything else is 0. -/
def start (N : Nat) : State N where
  mutex := 1
  sem _ := 0
  state _ := .THINKING
  point _ := .think

section Step

variable {N : Nat}

/-- The philosopher that a call of `test` by `i` is about. -/
def TestCall.target (c : TestCall) (i : Id N) : Id N :=
  match c with
  | .own => i
  | .left => i.left
  | .right => i.right

/-- Where the thread goes on after a call of `test`. -/
def TestCall.next : TestCall → Point
  | .own => .leaveTake
  | .left => .test .right .readSelf
  | .right => .leavePut

/-- The thread goes to another point. -/
@[simps]
def State.setPoint (s : State N) (i : Id N) (p : Point) : State N :=
  { s with point := Function.update s.point i p }

/-- An assignment to an entry of `state`. -/
@[simps]
def State.setState (s : State N) (i : Id N) (a : Activity) : State N :=
  { s with state := Function.update s.state i a }

/-- An assignment to an entry of `sem`. -/
@[simps]
def State.setSem (s : State N) (i : Id N) (n : Nat) : State N :=
  { s with sem := Function.update s.sem i n }

/-- An assignment to `mutex`. -/
@[simps]
def State.setMutex (s : State N) (n : Nat) : State N :=
  { s with mutex := n }

/-- A step of `test` called as `c` by the thread `i`. -/
def testStep (s : State N) (i : Id N) (c : TestCall) : TestPoint → State N
  | .readSelf =>
    if s.state (c.target i) = .HUNGRY then s.setPoint i (.test c .readLeft)
    else s.setPoint i c.next
  | .readLeft =>
    if s.state (c.target i).left ≠ .EATING then s.setPoint i (.test c .readRight)
    else s.setPoint i c.next
  | .readRight =>
    if s.state (c.target i).right ≠ .EATING then s.setPoint i (.test c .setEating)
    else s.setPoint i c.next
  | .setEating => (s.setState (c.target i) .EATING).setPoint i (.test c .post)
  | .post => (s.setSem (c.target i) (s.sem (c.target i) + 1)).setPoint i c.next

/-- A step of the thread `i`; none when it is blocked. The event is the thread. -/
def step (s : State N) (i : Id N) : Option (Id N × State N) :=
  match s.point i with
  | .think => some (i, s.setPoint i .takeMutex)
  | .takeMutex =>
    if 0 < s.mutex then some (i, (s.setMutex (s.mutex - 1)).setPoint i .setHungry) else none
  | .setHungry => some (i, (s.setState i .HUNGRY).setPoint i (.test .own .readSelf))
  | .test c p => some (i, testStep s i c p)
  | .leaveTake => some (i, (s.setMutex (s.mutex + 1)).setPoint i .waitSem)
  | .waitSem =>
    if 0 < s.sem i then some (i, (s.setSem i (s.sem i - 1)).setPoint i .eat) else none
  | .eat => some (i, s.setPoint i .putMutex)
  | .putMutex =>
    if 0 < s.mutex then some (i, (s.setMutex (s.mutex - 1)).setPoint i .setThinking) else none
  | .setThinking => some (i, (s.setState i .THINKING).setPoint i (.test .left .readSelf))
  | .leavePut => some (i, (s.setMutex (s.mutex + 1)).setPoint i .think)

end Step

end EE516.Philosopher
