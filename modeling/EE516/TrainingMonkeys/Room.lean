import EE516.TrainingMonkeys.Bowls

/-!
# The room

The whole of `project3/task1_training_monkeys.c`: `main`, which spawns the monkeys, the life of a
monkey from its creation through the room to the bowls and the end of its training, and the trainer.
One access of a semaphore or of a global variable is a step. The printing and the sleeping are left
out, and the counters do not overflow. `pthread_create` starts any thread that has not been started;
`T` is the type of the monkeys that come into being, so that a run with any number of them is a run
here for some `T`.
-/

set_option autoImplicit false

namespace EE516.TrainingMonkeys.Room

universe u

/-- The most monkeys in the room. -/
def MAX_MONKEYS : Nat := 4

/-- The number of trained monkeys at which the training ends. -/
def TARGET_TRAINING : Int := 300

/-- The colours of the balls. -/
inductive Color where
  | red
  | green
  | blue
  | yellow
  deriving DecidableEq

/-- The index of the ball in `balls`. -/
def Color.index : Color → Nat
  | red => 0
  | green => 1
  | blue => 2
  | yellow => 3

/-- The ball at an index of `balls`. -/
def Color.ofIndex : Nat → Color
  | 0 => red
  | 1 => green
  | 2 => blue
  | _ => yellow

/-- The fields of `struct monkey` that the monkey keeps; its state is its place. -/
structure Monkey where
  id : Int
  firstball : Color
  secondball : Color
  timeforThinking : Nat
  deriving DecidableEq

/-- The global variables. -/
structure Globals where
  balls : Color → Nat
  ballCheckingMutex : Nat
  counterMutex : Nat
  identity : Int
  trainingCounter : Int
  bowls : Shared
  /-- `exit` has been called. -/
  exited : Bool

/-! ## Shared functions -/

/-- The place in `modifyValue`. -/
inductive ModifyPos where
  | wait
  | add
  | copy
  | post (out : Int)
  | ret (out : Int)
  deriving DecidableEq

/-- The next step of `modifyValue` on the mutex and the target. -/
def modifyValue (mutex : Nat) (target modifications : Int) :
    ModifyPos → Option (Nat × Int × ModifyPos)
  | .wait => if 0 < mutex then some (mutex - 1, target, .add) else none
  | .add => some (mutex, target + modifications, .copy)
  | .copy => some (mutex, target, .post target)
  | .post out => some (mutex + 1, target, .ret out)
  | .ret _ => none

/-- One draw of `getNanoTimeRandomNumber`; `none` is another turn of its loop. -/
def getNanoTimeRandomNumber (range : Nat) (excluded : Int) (rand : Nat) : Option Nat :=
  if excluded = -1 then some (rand % range)
  else if ((rand % range : Nat) : Int) = excluded then none
  else some (rand % range)

/-! ## The monkeys -/

/-- The place of a monkey. -/
inductive Place where
  | newMonkey
  | insideTheRoom
  /-- the state `CHECKING`, up to `postRetry` -/
  | checking
  | getFirst
  | getSecond (b1 : Nat)
  | testBalls (b1 b2 : Nat)
  | waitFirst
  | waitSecond
  | postChecking
  | postRetry
  | takesFirstBall
  | takesSecondBall
  | postFirst
  | postSecond
  | outsideTheRoom (p : MonkeyPos)
  | endTraining (p : ModifyPos)
  | finishTraining (v : Int)
  | finished
  deriving DecidableEq

/-- The next step of a monkey. -/
def placeStep (g : Globals) (mon : Monkey) : Place → Option (Globals × Place)
  | .newMonkey => some (g, .insideTheRoom)
  | .insideTheRoom => some (g, .checking)
  | .checking =>
    if 0 < g.ballCheckingMutex then
      some ({ g with ballCheckingMutex := g.ballCheckingMutex - 1 }, .getFirst)
    else none
  | .getFirst => some (g, .getSecond (g.balls mon.firstball))
  | .getSecond b1 => some (g, .testBalls b1 (g.balls mon.secondball))
  | .testBalls b1 b2 => some (g, if b1 = 1 ∧ b2 = 1 then .waitFirst else .postRetry)
  | .waitFirst =>
    if 0 < g.balls mon.firstball then
      some ({ g with
        balls := Function.update g.balls mon.firstball (g.balls mon.firstball - 1) }, .waitSecond)
    else none
  | .waitSecond =>
    if 0 < g.balls mon.secondball then
      some ({ g with
        balls := Function.update g.balls mon.secondball (g.balls mon.secondball - 1) },
        .postChecking)
    else none
  | .postChecking =>
    some ({ g with ballCheckingMutex := g.ballCheckingMutex + 1 }, .takesFirstBall)
  | .postRetry => some ({ g with ballCheckingMutex := g.ballCheckingMutex + 1 }, .checking)
  | .takesFirstBall => some (g, .takesSecondBall)
  | .takesSecondBall => some (g, .postFirst)
  | .postFirst =>
    some ({ g with
      balls := Function.update g.balls mon.firstball (g.balls mon.firstball + 1) }, .postSecond)
  | .postSecond =>
    some ({ g with
      balls := Function.update g.balls mon.secondball (g.balls mon.secondball + 1) },
      .outsideTheRoom (.postMaxMonkeys 0))
  | .outsideTheRoom .eatBananas | .outsideTheRoom .eatApples => some (g, .endTraining .wait)
  | .outsideTheRoom p =>
    (monkeyStep g.bowls p).map fun r => ({ g with bowls := r.1 }, .outsideTheRoom r.2)
  | .endTraining (.ret out) =>
    some (g, if out = TARGET_TRAINING then .finishTraining out else .finished)
  | .endTraining p =>
    (modifyValue g.counterMutex g.trainingCounter 1 p).map fun r =>
      ({ g with counterMutex := r.1, trainingCounter := r.2.1 }, .endTraining r.2.2)
  | .finishTraining _ => some ({ g with exited := true }, .finished)
  | .finished => none

/-- A monkey's thread. -/
inductive Life where
  | unborn
  | alive (mon : Monkey) (p : Place)
  deriving DecidableEq

/-- The next step of a thread. -/
def lifeStep (g : Globals) : Life → Option (Globals × Life)
  | .unborn => none
  | .alive mon p => (placeStep g mon p).map fun r => (r.1, .alive mon r.2)

/-! ## The main thread -/

/-- The place of `main`, in its loop and in `spawnMonkeyThread`. -/
inductive MainPos where
  | waitMaxMonkeys
  | drawFirst
  | drawSecond (firstball : Color)
  | drawTime (firstball secondball : Color)
  | modify (firstball secondball : Color) (waitingtime : Nat) (p : ModifyPos)
  | create (mon : Monkey)
  deriving DecidableEq

/-- The next step of `main`, up to `pthread_create`. -/
def mainStep (g : Globals) (rand : Nat) : MainPos → Option (Globals × MainPos)
  | .waitMaxMonkeys =>
    if 0 < g.bowls.maxMonkeys then
      some ({ g with bowls := { g.bowls with maxMonkeys := g.bowls.maxMonkeys - 1 } }, .drawFirst)
    else none
  | .drawFirst =>
    match getNanoTimeRandomNumber 4 (-1) rand with
    | some ret => some (g, .drawSecond (Color.ofIndex ret))
    | none => some (g, .drawFirst)
  | .drawSecond firstball =>
    match getNanoTimeRandomNumber 4 firstball.index rand with
    | some ret => some (g, .drawTime firstball (Color.ofIndex ret))
    | none => some (g, .drawSecond firstball)
  | .drawTime firstball secondball =>
    match getNanoTimeRandomNumber 2500 (-1) rand with
    | some ret => some (g, .modify firstball secondball (1000 + ret) .wait)
    | none => some (g, .drawTime firstball secondball)
  | .modify firstball secondball waitingtime (.ret id) =>
    some (g, .create ⟨id, firstball, secondball, waitingtime⟩)
  | .modify firstball secondball waitingtime p =>
    (modifyValue g.counterMutex g.identity 1 p).map fun r =>
      ({ g with counterMutex := r.1, identity := r.2.1 },
        .modify firstball secondball waitingtime r.2.2)
  | .create _ => none

/-! ## The program -/

/-- The state of all threads. -/
structure State (T : Type u) where
  globals : Globals
  main : MainPos
  monkey : T → Life
  trainer : TrainerPos

/-- The thread that makes a step; `main` brings the number that it draws. -/
inductive Turn (T : Type u) where
  | main (rand : Nat)
  | create (t : T)
  | monkey (t : T)
  | trainer

variable {T : Type u}

/-- `initSemaphore` and `spawnTrainerThread` have run, and `main` is before its loop. -/
def start (T : Type u) : State T where
  globals := ⟨fun _ => 1, 1, 1, 0, 0, ⟨MAX_MONKEYS, 2, 0, 1, fun _ => 0, fun _ => 0⟩, false⟩
  main := .waitMaxMonkeys
  monkey _ := .unborn
  trainer := .waitEmpty

variable [DecidableEq T]

/-- `pthread_create` starts the thread `t`. -/
def createStep (s : State T) (t : T) : Option (State T) :=
  match s.main, s.monkey t with
  | .create mon, .unborn =>
    some { s with
      main := .waitMaxMonkeys, monkey := Function.update s.monkey t (.alive mon .newMonkey) }
  | _, _ => none

/-- One step of one thread; the event says whose it was. -/
def step (s : State T) (a : Turn T) : Option (Turn T × State T) :=
  if s.globals.exited then none
  else match a with
    | .main rand => (mainStep s.globals rand s.main).map fun r =>
        (.main rand, { s with globals := r.1, main := r.2 })
    | .create t => (createStep s t).map fun s' => (.create t, s')
    | .monkey t => (lifeStep s.globals (s.monkey t)).map fun r =>
        (.monkey t, { s with globals := r.1, monkey := Function.update s.monkey t r.2 })
    | .trainer => (trainerStep s.globals.bowls s.trainer).map fun r =>
        (.trainer, { s with globals := { s.globals with bowls := r.1 }, trainer := r.2 })

/-! ## What a step can do -/

/-- What a step of a monkey at a place can do. -/
inductive Act (g : Globals) (mon : Monkey) : Place → Globals → Place → Prop
  | comesIn : Act g mon .newMonkey g .insideTheRoom
  | startsChecking : Act g mon .insideTheRoom g .checking
  | locked :
      0 < g.ballCheckingMutex →
        Act g mon .checking { g with ballCheckingMutex := g.ballCheckingMutex - 1 } .getFirst
  | gotFirst : Act g mon .getFirst g (.getSecond (g.balls mon.firstball))
  | gotSecond {b1 : Nat} : Act g mon (.getSecond b1) g (.testBalls b1 (g.balls mon.secondball))
  | bothFree : Act g mon (.testBalls 1 1) g .waitFirst
  | notFree {b1 b2 : Nat} : ¬ (b1 = 1 ∧ b2 = 1) → Act g mon (.testBalls b1 b2) g .postRetry
  | tookFirst :
      0 < g.balls mon.firstball →
        Act g mon .waitFirst
          { g with balls := Function.update g.balls mon.firstball (g.balls mon.firstball - 1) }
          .waitSecond
  | tookSecond :
      0 < g.balls mon.secondball →
        Act g mon .waitSecond
          { g with balls := Function.update g.balls mon.secondball (g.balls mon.secondball - 1) }
          .postChecking
  | unlocked :
      Act g mon .postChecking { g with ballCheckingMutex := g.ballCheckingMutex + 1 }
        .takesFirstBall
  | gaveUp :
      Act g mon .postRetry { g with ballCheckingMutex := g.ballCheckingMutex + 1 } .checking
  | thoughtFirst : Act g mon .takesFirstBall g .takesSecondBall
  | thoughtSecond : Act g mon .takesSecondBall g .postFirst
  | releasedFirst :
      Act g mon .postFirst
        { g with balls := Function.update g.balls mon.firstball (g.balls mon.firstball + 1) }
        .postSecond
  | releasedSecond :
      Act g mon .postSecond
        { g with balls := Function.update g.balls mon.secondball (g.balls mon.secondball + 1) }
        (.outsideTheRoom (.postMaxMonkeys 0))
  | outside {p p' : MonkeyPos} {m : Shared} :
      Move g.bowls p m p' → Act g mon (.outsideTheRoom p) { g with bowls := m } (.outsideTheRoom p')
  | ate {p : MonkeyPos} :
      p = .eatBananas ∨ p = .eatApples → Act g mon (.outsideTheRoom p) g (.endTraining .wait)
  | modified {p p' : ModifyPos} {mutex : Nat} {counter : Int} :
      modifyValue g.counterMutex g.trainingCounter 1 p = some (mutex, counter, p') →
        Act g mon (.endTraining p) { g with counterMutex := mutex, trainingCounter := counter }
          (.endTraining p')
  | trained {out : Int} {p : Place} :
      p = .finishTraining out ∨ p = .finished → Act g mon (.endTraining (.ret out)) g p
  | exited {v : Int} : Act g mon (.finishTraining v) { g with exited := true } .finished

/-- What a step of `main` can do. -/
inductive Spawn (g : Globals) : MainPos → Globals → MainPos → Prop
  | roomFree :
      0 < g.bowls.maxMonkeys →
        Spawn g .waitMaxMonkeys
          { g with bowls := { g.bowls with maxMonkeys := g.bowls.maxMonkeys - 1 } } .drawFirst
  | drewFirst {c : Color} : Spawn g .drawFirst g (.drawSecond c)
  | drewSecond {c c' : Color} : c' ≠ c → Spawn g (.drawSecond c) g (.drawTime c c')
  | drewAgain {c : Color} : Spawn g (.drawSecond c) g (.drawSecond c)
  | drewTime {c c' : Color} {time : Nat} :
      Spawn g (.drawTime c c') g (.modify c c' time .wait)
  | modified {c c' : Color} {time mutex : Nat} {p p' : ModifyPos} {counter : Int} :
      modifyValue g.counterMutex g.identity 1 p = some (mutex, counter, p') →
        Spawn g (.modify c c' time p) { g with counterMutex := mutex, identity := counter }
          (.modify c c' time p')
  | filled {c c' : Color} {time : Nat} {id : Int} :
      Spawn g (.modify c c' time (.ret id)) g (.create ⟨id, c, c', time⟩)

/-- What a step of the program can do. -/
inductive Effect (s : State T) : Turn T → State T → Prop
  | main {rand : Nat} {g : Globals} {y : MainPos} :
      Spawn s.globals s.main g y → Effect s (.main rand) { s with globals := g, main := y }
  | create {t : T} {mon : Monkey} :
      s.main = .create mon → s.monkey t = .unborn →
        Effect s (.create t)
          { s with
            main := .waitMaxMonkeys, monkey := Function.update s.monkey t (.alive mon .newMonkey) }
  | monkey {t : T} {mon : Monkey} {g : Globals} {p p' : Place} :
      s.monkey t = .alive mon p → Act s.globals mon p g p' →
        Effect s (.monkey t)
          { s with globals := g, monkey := Function.update s.monkey t (.alive mon p') }
  | trainer {m : Shared} {y : TrainerPos} :
      Feed s.globals.bowls s.trainer m y →
        Effect s .trainer { s with globals := { s.globals with bowls := m }, trainer := y }

variable {g g' : Globals} {mon : Monkey}

theorem act_of_placeStep {p p' : Place} (h : placeStep g mon p = some (g', p')) :
    Act g mon p g' p' := by
  cases p with
  | newMonkey =>
    cases h
    exact .comesIn
  | insideTheRoom =>
    cases h
    exact .startsChecking
  | checking =>
    simp only [placeStep] at h
    split at h
    · cases h
      exact .locked ‹_›
    · cases h
  | getFirst =>
    cases h
    exact .gotFirst
  | getSecond b1 =>
    cases h
    exact .gotSecond
  | testBalls b1 b2 =>
    by_cases hfree : b1 = 1 ∧ b2 = 1
    · obtain ⟨rfl, rfl⟩ := hfree
      cases h
      exact .bothFree
    · simp only [placeStep, if_neg hfree] at h
      cases h
      exact .notFree hfree
  | waitFirst | waitSecond =>
    simp only [placeStep] at h
    split at h
    · cases h
      first | exact .tookFirst ‹_› | exact .tookSecond ‹_›
    · cases h
  | postChecking =>
    cases h
    exact .unlocked
  | postRetry =>
    cases h
    exact .gaveUp
  | takesFirstBall =>
    cases h
    exact .thoughtFirst
  | takesSecondBall =>
    cases h
    exact .thoughtSecond
  | postFirst =>
    cases h
    exact .releasedFirst
  | postSecond =>
    cases h
    exact .releasedSecond
  | outsideTheRoom p =>
    cases p with
    | eatBananas =>
      cases h
      exact .ate (.inl rfl)
    | eatApples =>
      cases h
      exact .ate (.inr rfl)
    | _ =>
      simp only [placeStep] at h
      obtain ⟨⟨m, y⟩, hmove, heq⟩ := Option.map_eq_some_iff.1 h
      cases heq
      exact .outside (move_of_monkeyStep hmove)
  | endTraining p =>
    cases p with
    | ret out =>
      cases h
      refine .trained ?_
      split
      · exact .inl rfl
      · exact .inr rfl
    | _ =>
      simp only [placeStep] at h
      obtain ⟨⟨mutex, counter, y⟩, hmodify, heq⟩ := Option.map_eq_some_iff.1 h
      cases heq
      exact .modified hmodify
  | finishTraining v =>
    cases h
    exact .exited
  | finished => cases h

/-- A draw that excludes a colour gives another one. -/
theorem ofIndex_ne_of_draw {c : Color} {rand ret : Nat}
    (h : getNanoTimeRandomNumber 4 c.index rand = some ret) : Color.ofIndex ret ≠ c := by
  have hlt := Nat.mod_lt rand (show 0 < 4 by decide)
  have hne : (c.index : Int) ≠ -1 := by cases c <;> decide
  rw [getNanoTimeRandomNumber, if_neg hne] at h
  split at h
  · cases h
  · rename_i hother
    cases h
    generalize rand % 4 = ret at hlt hother
    cases c <;> simp only [Color.index] at hother <;>
      match ret, hlt with
      | 0, _ | 1, _ | 2, _ | 3, _ => first | exact absurd rfl hother | decide

/-- What a step of `main` can do. -/
theorem spawn_of_mainStep {rand : Nat} {x y : MainPos} (h : mainStep g rand x = some (g', y)) :
    Spawn g x g' y := by
  cases x with
  | waitMaxMonkeys =>
    simp only [mainStep] at h
    split at h
    · cases h
      exact .roomFree ‹_›
    · cases h
  | drawFirst =>
    cases h
    exact .drewFirst
  | drawSecond firstball =>
    simp only [mainStep] at h
    split at h
    · rename_i hdraw
      cases h
      exact .drewSecond (ofIndex_ne_of_draw hdraw)
    · cases h
      exact .drewAgain
  | drawTime firstball secondball =>
    cases h
    exact .drewTime
  | modify firstball secondball waitingtime p =>
    cases p with
    | ret id =>
      cases h
      exact .filled
    | _ =>
      simp only [mainStep] at h
      obtain ⟨⟨mutex, counter, p'⟩, hmodify, heq⟩ := Option.map_eq_some_iff.1 h
      cases heq
      exact .modified hmodify
  | create mon => cases h

/-- What a step of the system can do. -/
theorem effect_of_step {s s' : State T} {e : Turn T} (h : Foundations.StepBy step s e s') :
    Effect s e s' := by
  obtain ⟨a, ha⟩ := h
  simp only [step] at ha
  split at ha
  · cases ha
  cases a with
  | main rand =>
    obtain ⟨⟨g, y⟩, hmain, heq⟩ := Option.map_eq_some_iff.1 ha
    cases heq
    exact .main (spawn_of_mainStep hmain)
  | create t =>
    obtain ⟨s₁, hcreate, heq⟩ := Option.map_eq_some_iff.1 ha
    cases heq
    simp only [createStep] at hcreate
    split at hcreate
    · rename_i hmain hunborn
      cases hcreate
      exact .create hmain hunborn
    · cases hcreate
  | monkey t =>
    obtain ⟨⟨g, y⟩, hlife, heq⟩ := Option.map_eq_some_iff.1 ha
    cases heq
    generalize hx : s.monkey t = x at hlife
    cases x with
    | unborn => cases hlife
    | alive mon p =>
      obtain ⟨⟨g, p'⟩, hplace, heq⟩ := Option.map_eq_some_iff.1 hlife
      cases heq
      exact .monkey hx (act_of_placeStep hplace)
  | trainer =>
    obtain ⟨⟨m, y⟩, hfeed, heq⟩ := Option.map_eq_some_iff.1 ha
    cases heq
    exact .trainer (feed_of_trainerStep hfeed)

end EE516.TrainingMonkeys.Room
