import EE516.Foundations.Run
import Mathlib.Logic.Function.Basic

/-!
# Monkeys at the bowls

The steps of `project3/task1_training_monkeys.c` outside the room: what a monkey does in the state
`OUTSIDE_THE_ROOM`, with `acquireProperBowl` and `releaseBowl`, and the trainer. One access of a
semaphore or of `bowls_usage` is a step; a thread waits at a semaphore of value 0 by having no step
there. The variable `errno` is the thread's own, 0 when the thread begins, and changed by a failing
`sem_trywait` only. The printing and the sleeping are left out.
-/

set_option autoImplicit false

namespace EE516.TrainingMonkeys

universe u

/-- The error number of a `sem_trywait` that would block. -/
def EAGAIN : Int := 11

/-- The global variables. -/
structure Shared where
  maxMonkeys : Nat
  bowls_full : Nat
  bowls_empty : Nat
  bowlCheckingMutex : Nat
  bowls_detail : Int → Nat
  bowls_usage : Int → Int

/-- The place of a monkey in the state `OUTSIDE_THE_ROOM`; `i` is the number of its bowl. -/
inductive MonkeyPos where
  | postMaxMonkeys (errno : Int)
  | tryFull (errno : Int)
  | testErrno (errno : Int)
  /-- the beginning of `acquireProperBowl` -/
  | waitAcquire
  | testFirst
  | takeFirst
  | testSecond
  | takeSecond
  | postAcquire (i : Int)
  | postEmpty (i : Int)
  | waitDetail (i : Int)
  /-- the beginning of `releaseBowl` -/
  | waitRelease (i : Int)
  | testRelease (i : Int)
  | clear (i : Int)
  | postRelease
  | postFull
  | eatBananas
  | eatApples
  deriving DecidableEq

/-- The place of the trainer. -/
inductive TrainerPos where
  | waitEmpty
  | testFirst
  | testSecond
  | postDetail (i : Int)
  deriving DecidableEq

/-- The next step of a monkey. -/
def monkeyStep (m : Shared) : MonkeyPos → Option (Shared × MonkeyPos)
  | .postMaxMonkeys errno => some ({ m with maxMonkeys := m.maxMonkeys + 1 }, .tryFull errno)
  | .tryFull errno =>
    if 0 < m.bowls_full then some ({ m with bowls_full := m.bowls_full - 1 }, .testErrno errno)
    else some (m, .testErrno EAGAIN)
  -- `errno` keeps its last value when `sem_trywait` succeeds
  | .testErrno errno => some (m, if errno = EAGAIN then .eatApples else .waitAcquire)
  | .waitAcquire =>
    if 0 < m.bowlCheckingMutex then
      some ({ m with bowlCheckingMutex := m.bowlCheckingMutex - 1 }, .testFirst)
    else none
  | .testFirst => some (m, if m.bowls_usage 0 = 0 then .takeFirst else .testSecond)
  | .takeFirst =>
    some ({ m with bowls_usage := Function.update m.bowls_usage 0 1 }, .postAcquire 0)
  -- without a free bowl the monkey goes on with the index -1
  | .testSecond => some (m, if m.bowls_usage 1 = 0 then .takeSecond else .postAcquire (-1))
  | .takeSecond =>
    some ({ m with bowls_usage := Function.update m.bowls_usage 1 1 }, .postAcquire 1)
  | .postAcquire i =>
    some ({ m with bowlCheckingMutex := m.bowlCheckingMutex + 1 }, .postEmpty i)
  | .postEmpty i => some ({ m with bowls_empty := m.bowls_empty + 1 }, .waitDetail i)
  | .waitDetail i =>
    if 0 < m.bowls_detail i then
      some ({ m with bowls_detail := Function.update m.bowls_detail i (m.bowls_detail i - 1) },
        .waitRelease i)
    else none
  | .waitRelease i =>
    if 0 < m.bowlCheckingMutex then
      some ({ m with bowlCheckingMutex := m.bowlCheckingMutex - 1 }, .testRelease i)
    else none
  | .testRelease i => some (m, if m.bowls_usage i = 1 then .clear i else .postRelease)
  | .clear i =>
    some ({ m with bowls_usage := Function.update m.bowls_usage i 0 }, .postRelease)
  | .postRelease => some ({ m with bowlCheckingMutex := m.bowlCheckingMutex + 1 }, .postFull)
  | .postFull => some ({ m with bowls_full := m.bowls_full + 1 }, .eatBananas)
  | .eatBananas => none
  | .eatApples => none

/-- The next step of the trainer. -/
def trainerStep (m : Shared) : TrainerPos → Option (Shared × TrainerPos)
  | .waitEmpty =>
    if 0 < m.bowls_empty then some ({ m with bowls_empty := m.bowls_empty - 1 }, .testFirst)
    else none
  -- the first bowl in use is fed, whether its monkey waits or has eaten
  | .testFirst => some (m, if m.bowls_usage 0 = 1 then .postDetail 0 else .testSecond)
  | .testSecond => some (m, if m.bowls_usage 1 = 1 then .postDetail 1 else .waitEmpty)
  | .postDetail i =>
    some ({ m with bowls_detail := Function.update m.bowls_detail i (m.bowls_detail i + 1) },
      .waitEmpty)

/-- What a step of a monkey at a position can do. -/
inductive Move (m : Shared) : MonkeyPos → Shared → MonkeyPos → Prop
  | leftRoom {errno : Int} :
      Move m (.postMaxMonkeys errno) { m with maxMonkeys := m.maxMonkeys + 1 } (.tryFull errno)
  | tookFull {errno : Int} :
      0 < m.bowls_full →
        Move m (.tryFull errno) { m with bowls_full := m.bowls_full - 1 } (.testErrno errno)
  | foundNone {errno : Int} :
      m.bowls_full = 0 → Move m (.tryFull errno) m (.testErrno EAGAIN)
  | gaveUp : Move m (.testErrno EAGAIN) m .eatApples
  | wentOn {errno : Int} : errno ≠ EAGAIN → Move m (.testErrno errno) m .waitAcquire
  | acquireLocked :
      0 < m.bowlCheckingMutex →
        Move m .waitAcquire { m with bowlCheckingMutex := m.bowlCheckingMutex - 1 } .testFirst
  | firstFree : m.bowls_usage 0 = 0 → Move m .testFirst m .takeFirst
  | firstTaken : m.bowls_usage 0 ≠ 0 → Move m .testFirst m .testSecond
  | tookFirst :
      Move m .takeFirst { m with bowls_usage := Function.update m.bowls_usage 0 1 }
        (.postAcquire 0)
  | secondFree : m.bowls_usage 1 = 0 → Move m .testSecond m .takeSecond
  | secondTaken : m.bowls_usage 1 ≠ 0 → Move m .testSecond m (.postAcquire (-1))
  | tookSecond :
      Move m .takeSecond { m with bowls_usage := Function.update m.bowls_usage 1 1 }
        (.postAcquire 1)
  | acquireUnlocked {i : Int} :
      Move m (.postAcquire i) { m with bowlCheckingMutex := m.bowlCheckingMutex + 1 }
        (.postEmpty i)
  | postedEmpty {i : Int} :
      Move m (.postEmpty i) { m with bowls_empty := m.bowls_empty + 1 } (.waitDetail i)
  | fed {i : Int} :
      0 < m.bowls_detail i →
        Move m (.waitDetail i)
          { m with bowls_detail := Function.update m.bowls_detail i (m.bowls_detail i - 1) }
          (.waitRelease i)
  | releaseLocked {i : Int} :
      0 < m.bowlCheckingMutex →
        Move m (.waitRelease i) { m with bowlCheckingMutex := m.bowlCheckingMutex - 1 }
          (.testRelease i)
  | found {i : Int} : m.bowls_usage i = 1 → Move m (.testRelease i) m (.clear i)
  | notFound {i : Int} : m.bowls_usage i ≠ 1 → Move m (.testRelease i) m .postRelease
  | cleared {i : Int} :
      Move m (.clear i) { m with bowls_usage := Function.update m.bowls_usage i 0 } .postRelease
  | releaseUnlocked :
      Move m .postRelease { m with bowlCheckingMutex := m.bowlCheckingMutex + 1 } .postFull
  | postedFull : Move m .postFull { m with bowls_full := m.bowls_full + 1 } .eatBananas

/-- What a step of the trainer at a position can do. -/
inductive Feed (m : Shared) : TrainerPos → Shared → TrainerPos → Prop
  | woken :
      0 < m.bowls_empty →
        Feed m .waitEmpty { m with bowls_empty := m.bowls_empty - 1 } .testFirst
  | first : m.bowls_usage 0 = 1 → Feed m .testFirst m (.postDetail 0)
  | notFirst : m.bowls_usage 0 ≠ 1 → Feed m .testFirst m .testSecond
  | second : m.bowls_usage 1 = 1 → Feed m .testSecond m (.postDetail 1)
  | neither : m.bowls_usage 1 ≠ 1 → Feed m .testSecond m .waitEmpty
  | posted {i : Int} :
      Feed m (.postDetail i)
        { m with bowls_detail := Function.update m.bowls_detail i (m.bowls_detail i + 1) }
        .waitEmpty

variable {m m' : Shared}

theorem move_of_monkeyStep {x y : MonkeyPos} (h : monkeyStep m x = some (m', y)) :
    Move m x m' y := by
  cases x with
  | postMaxMonkeys errno =>
    cases h
    exact .leftRoom
  | tryFull errno =>
    simp only [monkeyStep] at h
    split at h
    · cases h
      exact .tookFull ‹_›
    · cases h
      exact .foundNone (by omega)
  | testErrno errno =>
    by_cases herrno : errno = EAGAIN
    · simp only [monkeyStep, if_pos herrno] at h
      cases h
      exact herrno ▸ .gaveUp
    · simp only [monkeyStep, if_neg herrno] at h
      cases h
      exact .wentOn herrno
  | waitAcquire =>
    simp only [monkeyStep] at h
    split at h
    · cases h
      exact .acquireLocked ‹_›
    · cases h
  | testFirst =>
    by_cases hfree : m.bowls_usage 0 = 0
    · simp only [monkeyStep, if_pos hfree] at h
      cases h
      exact .firstFree hfree
    · simp only [monkeyStep, if_neg hfree] at h
      cases h
      exact .firstTaken hfree
  | takeFirst =>
    cases h
    exact .tookFirst
  | testSecond =>
    by_cases hfree : m.bowls_usage 1 = 0
    · simp only [monkeyStep, if_pos hfree] at h
      cases h
      exact .secondFree hfree
    · simp only [monkeyStep, if_neg hfree] at h
      cases h
      exact .secondTaken hfree
  | takeSecond =>
    cases h
    exact .tookSecond
  | postAcquire i =>
    cases h
    exact .acquireUnlocked
  | postEmpty i =>
    cases h
    exact .postedEmpty
  | waitDetail i =>
    simp only [monkeyStep] at h
    split at h
    · cases h
      exact .fed ‹_›
    · cases h
  | waitRelease i =>
    simp only [monkeyStep] at h
    split at h
    · cases h
      exact .releaseLocked ‹_›
    · cases h
  | testRelease i =>
    by_cases hused : m.bowls_usage i = 1
    · simp only [monkeyStep, if_pos hused] at h
      cases h
      exact .found hused
    · simp only [monkeyStep, if_neg hused] at h
      cases h
      exact .notFound hused
  | clear i =>
    cases h
    exact .cleared
  | postRelease =>
    cases h
    exact .releaseUnlocked
  | postFull =>
    cases h
    exact .postedFull
  | eatBananas => cases h
  | eatApples => cases h

theorem feed_of_trainerStep {x y : TrainerPos} (h : trainerStep m x = some (m', y)) :
    Feed m x m' y := by
  cases x with
  | waitEmpty =>
    simp only [trainerStep] at h
    split at h
    · cases h
      exact .woken ‹_›
    · cases h
  | testFirst =>
    by_cases hused : m.bowls_usage 0 = 1
    · simp only [trainerStep, if_pos hused] at h
      cases h
      exact .first hused
    · simp only [trainerStep, if_neg hused] at h
      cases h
      exact .notFirst hused
  | testSecond =>
    by_cases hused : m.bowls_usage 1 = 1
    · simp only [trainerStep, if_pos hused] at h
      cases h
      exact .second hused
    · simp only [trainerStep, if_neg hused] at h
      cases h
      exact .neither hused
  | postDetail i =>
    cases h
    exact .posted

/-! ## The program -/

/-- The state of the monkeys and the trainer. -/
structure State (T : Type u) where
  shared : Shared
  monkey : T → MonkeyPos
  trainer : TrainerPos

/-- The thread that makes a step. -/
inductive Turn (T : Type u) where
  | monkey (t : T)
  | trainer

variable {T : Type u}

/-- `initSemaphore` has run, `main` has left `maxMonkeys` at some value, the trainer begins, and the
monkeys are on their way out of the room. -/
def start (T : Type u) (maxMonkeys : Nat) : State T where
  shared := ⟨maxMonkeys, 2, 0, 1, fun _ => 0, fun _ => 0⟩
  monkey _ := .postMaxMonkeys 0
  trainer := .waitEmpty

variable [DecidableEq T]

/-- One step of one thread; the event says whose it was. -/
def step (s : State T) : Turn T → Option (Turn T × State T)
  | .monkey t => (monkeyStep s.shared (s.monkey t)).map fun r =>
      (.monkey t, { s with shared := r.1, monkey := Function.update s.monkey t r.2 })
  | .trainer => (trainerStep s.shared s.trainer).map fun r =>
      (.trainer, { s with shared := r.1, trainer := r.2 })

/-- What a step can do. -/
inductive Effect (s : State T) : Turn T → State T → Prop
  | monkey {t : T} {m : Shared} {y : MonkeyPos} :
      Move s.shared (s.monkey t) m y →
        Effect s (.monkey t) { s with shared := m, monkey := Function.update s.monkey t y }
  | trainer {m : Shared} {y : TrainerPos} :
      Feed s.shared s.trainer m y → Effect s .trainer { s with shared := m, trainer := y }

/-- What a step of the system can do. -/
theorem effect_of_step {s s' : State T} {e : Turn T} (h : Foundations.StepBy step s e s') :
    Effect s e s' := by
  obtain ⟨a, ha⟩ := h
  cases a with
  | monkey t =>
    obtain ⟨⟨m, y⟩, hmove, heq⟩ := Option.map_eq_some_iff.1 ha
    cases heq
    exact .monkey (move_of_monkeyStep hmove)
  | trainer =>
    obtain ⟨⟨m, y⟩, hfeed, heq⟩ := Option.map_eq_some_iff.1 ha
    cases heq
    exact .trainer (feed_of_trainerStep hfeed)

end EE516.TrainingMonkeys
