import EE516.Foundations.Monitor
import EE516.TrainingMonkeys.Room

/-!
# Balls

The semaphore `ballCheckingMutex` makes a monitor of the balls: only its holder takes balls, the
other monkeys give them back, so a ball that the holder has seen free stays free until it takes it.
The semaphore `maxMonkeys` counts the places in the room.
-/

set_option autoImplicit false

namespace EE516.TrainingMonkeys.Room

open EE516.Foundations

universe u

/-! ## Places -/

/-- The monkey is between its `sem_wait` and its `sem_post` of the ball. -/
def Life.holds (c : Color) : Life → Bool
  | .alive mon .waitSecond => mon.firstball = c
  | .alive mon .postChecking | .alive mon .takesFirstBall | .alive mon .takesSecondBall
  | .alive mon .postFirst => mon.firstball = c ∨ mon.secondball = c
  | .alive mon .postSecond => mon.secondball = c
  | _ => false

/-- The ball is one of the monkey's two, the monkey has begun to take them, and it has not given
this one back. -/
def Life.has (c : Color) : Life → Bool
  | .alive mon .waitSecond | .alive mon .postChecking | .alive mon .takesFirstBall
  | .alive mon .takesSecondBall | .alive mon .postFirst => mon.firstball = c ∨ mon.secondball = c
  | .alive mon .postSecond => mon.secondball = c
  | _ => false

/-- The monkey is between its `sem_wait` and its `sem_post` of `ballCheckingMutex`. -/
def Life.checks : Life → Bool
  | .alive _ .getFirst | .alive _ (.getSecond _) | .alive _ (.testBalls _ _) => true
  | .alive _ .waitFirst | .alive _ .waitSecond | .alive _ .postChecking => true
  | .alive _ .postRetry => true
  | _ => false

/-- The monkey has been spawned and has not posted `maxMonkeys`. -/
def Life.inRoom : Life → Bool
  | .unborn => false
  | .alive _ (.outsideTheRoom (.postMaxMonkeys _)) => true
  | .alive _ (.outsideTheRoom _) | .alive _ (.endTraining _) => false
  | .alive _ (.finishTraining _) | .alive _ .finished => false
  | .alive _ _ => true

/-- `main` has taken a unit of `maxMonkeys` for the monkey that it spawns. -/
def MainPos.spawning : MainPos → Nat
  | .waitMaxMonkeys => 0
  | _ => 1

/-- The monkey needs two different balls. -/
def Life.Distinct : Life → Prop
  | .unborn => True
  | .alive mon _ => mon.firstball ≠ mon.secondball

/-- The balls that `main` has drawn are different. -/
def MainPos.Distinct : MainPos → Prop
  | .drawTime c c' | .modify c c' _ _ => c ≠ c'
  | .create mon => mon.firstball ≠ mon.secondball
  | _ => True

/-- One for a monkey that holds a ball of the colour. -/
def holding (c : Color) (x : Life) : Nat := (x.holds c).toNat

/-- One for a monkey that is in the room. -/
def staying (x : Life) : Nat := x.inRoom.toNat

/-- The monitor of `ballCheckingMutex`. -/
def checking : Monitor Life (Color → Nat) where
  holds := Life.checks
  idle _ := True
  busy balls
    | .alive mon (.getSecond b1) => b1 = 1 → balls mon.firstball = 1
    | .alive mon (.testBalls b1 b2) =>
      (b1 = 1 → balls mon.firstball = 1) ∧ (b2 = 1 → balls mon.secondball = 1)
    | .alive mon .waitFirst => balls mon.firstball = 1 ∧ balls mon.secondball = 1
    | .alive mon .waitSecond => balls mon.secondball = 1
    | _ => True

/-! ## One step -/

section Moves

variable {g g' : Globals} {mon : Monkey} {p p' : Place} {x y : MainPos}

/-- What the holder of the mutex knows stays true while free balls stay free. -/
theorem busy_mono {balls balls' : Color → Nat} (h : ∀ c, balls c = 1 → balls' c = 1) {q : Life}
    (hq : checking.busy balls q) : checking.busy balls' q := by
  cases q with
  | unborn => exact trivial
  | alive mon p =>
    cases p with
    | getSecond b1 => exact fun hb1 => h _ (hq hb1)
    | testBalls b1 b2 => exact ⟨fun hb1 => h _ (hq.1 hb1), fun hb2 => h _ (hq.2 hb2)⟩
    | waitFirst => exact ⟨h _ hq.1, h _ hq.2⟩
    | waitSecond => exact h _ hq
    | _ => exact trivial

/-- Giving back a ball that is not free keeps the free balls free. -/
theorem free_of_update {balls : Color → Nat} {c : Color} (hc : balls c = 0) (c' : Color)
    (h : balls c' = 1) : Function.update balls c (balls c + 1) c' = 1 := by
  by_cases heq : c' = c
  · rw [heq, Function.update_self, hc]
  · rw [Function.update_of_ne heq]
    exact h

/-- A ball is in the room or held by the monkey, before a move and after it. -/
theorem holding_act (h : Act g mon p g' p') (hdistinct : mon.firstball ≠ mon.secondball)
    (c : Color) :
    g'.balls c + holding c (.alive mon p') = g.balls c + holding c (.alive mon p) := by
  cases h with
  | tookFirst hpos =>
    by_cases hc : mon.firstball = c
    · subst hc
      simp only [Function.update_self, holding, Life.holds, decide_true, Bool.toNat_true,
        Bool.toNat_false]
      omega
    · have hne : c ≠ mon.firstball := fun h => hc h.symm
      simp only [Function.update_of_ne hne, holding, Life.holds, hc, decide_false]
  | tookSecond hpos =>
    by_cases hc : mon.secondball = c
    · subst hc
      simp only [Function.update_self, holding, Life.holds, hdistinct, or_true, decide_true,
        decide_false, Bool.toNat_true, Bool.toNat_false]
      omega
    · have hne : c ≠ mon.secondball := fun h => hc h.symm
      simp only [Function.update_of_ne hne, holding, Life.holds, hc, or_false]
  | releasedFirst =>
    by_cases hc : mon.firstball = c
    · subst hc
      simp only [Function.update_self, holding, Life.holds, hdistinct.symm, true_or, decide_true,
        decide_false, Bool.toNat_true, Bool.toNat_false]
    · have hne : c ≠ mon.firstball := fun h => hc h.symm
      simp only [Function.update_of_ne hne, holding, Life.holds, hc, false_or]
  | releasedSecond =>
    by_cases hc : mon.secondball = c
    · subst hc
      simp only [Function.update_self, holding, Life.holds, decide_true, Bool.toNat_true,
        Bool.toNat_false]
    · have hne : c ≠ mon.secondball := fun h => hc h.symm
      simp only [Function.update_of_ne hne, holding, Life.holds, hc, decide_false]
  | trained hp =>
    rcases hp with rfl | rfl <;> rfl
  | _ => rfl

/-- Every move of a monkey is one of the monitor of the balls. -/
theorem checking_act (h : Act g mon p g' p') (hdistinct : mon.firstball ≠ mon.secondball)
    (hone : ∀ c, g.balls c + holding c (.alive mon p) ≤ 1) :
    checking.Move g.ballCheckingMutex g.balls (.alive mon p) g'.ballCheckingMutex g'.balls
      (.alive mon p') := by
  cases h with
  | comesIn | startsChecking | thoughtFirst | thoughtSecond | outside | ate | modified | exited =>
    exact .same rfl rfl rfl
  | trained hp =>
    rcases hp with rfl | rfl
    · exact .same rfl rfl rfl
    · exact .same rfl rfl rfl
  | locked hpos =>
    obtain ⟨k, hk⟩ : ∃ k, g.ballCheckingMutex = k + 1 := ⟨g.ballCheckingMutex - 1, by omega⟩
    simp only [hk, Nat.add_sub_cancel]
    exact .enter rfl rfl fun _ => trivial
  | gotFirst => exact .stay rfl rfl fun _ => id
  | gotSecond => exact .stay rfl rfl fun hfirst => ⟨hfirst, id⟩
  | bothFree => exact .stay rfl rfl fun hboth => ⟨hboth.1 rfl, hboth.2 rfl⟩
  | notFree => exact .stay rfl rfl fun _ => trivial
  | tookFirst hpos =>
    -- taking the first ball leaves the second one, which is another
    refine .stay rfl rfl fun hboth => ?_
    show Function.update g.balls mon.firstball _ mon.secondball = 1
    rw [Function.update_of_ne hdistinct.symm]
    exact hboth.2
  | tookSecond hpos => exact .stay rfl rfl fun _ => trivial
  | unlocked | gaveUp => exact .leave rfl rfl fun _ => trivial
  | releasedFirst =>
    -- a ball that is put back was held, so its place is free
    have hheld := hone mon.firstball
    simp only [holding, Life.holds, true_or, decide_true, Bool.toNat_true] at hheld
    exact .outside rfl rfl id fun q _ => busy_mono (free_of_update (by omega))
  | releasedSecond =>
    have hheld := hone mon.secondball
    simp only [holding, Life.holds, decide_true, Bool.toNat_true] at hheld
    exact .outside rfl rfl id fun q _ => busy_mono (free_of_update (by omega))

/-- A monkey posts `maxMonkeys` when it leaves the room. -/
theorem staying_act (h : Act g mon p g' p') :
    g'.bowls.maxMonkeys + staying (.alive mon p') =
      g.bowls.maxMonkeys + staying (.alive mon p) := by
  cases h with
  | outside hmove => cases hmove <;> rfl
  | ate hp => rcases hp with rfl | rfl <;> rfl
  | trained hp => rcases hp with rfl | rfl <;> rfl
  | _ => rfl

/-- The trainer leaves `maxMonkeys` alone. -/
theorem feed_frame {m m' : Shared} {x y : TrainerPos} (h : Feed m x m' y) :
    m'.maxMonkeys = m.maxMonkeys := by
  cases h <;> rfl

/-- `main` leaves the balls alone and accounts for the unit of `maxMonkeys` that it has taken. -/
theorem spawn_frame (h : Spawn g x g' y) :
    g'.balls = g.balls ∧ g'.ballCheckingMutex = g.ballCheckingMutex ∧
      g'.bowls.maxMonkeys + y.spawning = g.bowls.maxMonkeys + x.spawning := by
  cases h with
  | roomFree hpos =>
    refine ⟨rfl, rfl, ?_⟩
    simp only [MainPos.spawning]
    omega
  | _ => exact ⟨rfl, rfl, rfl⟩

/-- A new monkey is sent for two different balls. -/
theorem distinct_spawn (h : Spawn g x g' y) (hx : x.Distinct) : y.Distinct := by
  cases h with
  | drewSecond hne => exact hne.symm
  | drewTime | modified | filled => exact hx
  | _ => trivial

end Moves

/-! ## Runs -/

section Runs

variable {T : Type u} [Fintype T] {s s' : State T} {e : Turn T} {τ : List (Turn T)} {t u : T}
  {c : Color} {mon : Monkey}

/-- Every ball is free or held once, the monitor's facts hold, and the places in the room are
accounted for. -/
structure Balanced (s : State T) : Prop where
  checking : checking.Inv s.globals.ballCheckingMutex s.globals.balls s.monkey
  balls : ∀ c, s.globals.balls c + tally (holding c) s.monkey = 1
  room : s.globals.bowls.maxMonkeys + s.main.spawning + tally staying s.monkey = MAX_MONKEYS
  distinct : ∀ t, (s.monkey t).Distinct
  drawn : s.main.Distinct

theorem balanced_start : Balanced (start T) := by
  have hzero : ∀ {weight : Life → Nat}, weight .unborn = 0 → tally weight (start T).monkey = 0 :=
    fun h => tally_eq_zero_iff.2 fun _ => h
  constructor
  · exact .start (fun _ => rfl) trivial
  · intro c
    rw [hzero rfl]
    rfl
  · rw [hzero rfl]
    rfl
  · intro t
    exact trivial
  · exact trivial

/-- What the holder of the mutex knows at the two `sem_wait`s. -/
theorem Balanced.free (h : Balanced s) :
    (s.monkey t = .alive mon .waitFirst →
      s.globals.balls mon.firstball = 1 ∧ s.globals.balls mon.secondball = 1) ∧
    (s.monkey t = .alive mon .waitSecond → s.globals.balls mon.secondball = 1) := by
  constructor
  · intro ht
    have hbusy := h.checking.busy t (by rw [ht]; rfl)
    rwa [ht] at hbusy
  · intro ht
    have hbusy := h.checking.busy t (by rw [ht]; rfl)
    rwa [ht] at hbusy

/-- A free ball is held by nobody. -/
theorem Balanced.not_holds (h : Balanced s) (hc : s.globals.balls c = 1) (t : T) :
    (s.monkey t).holds c = false := by
  have hballs := h.balls c
  have hzero := tally_eq_zero_iff.1 (show tally (holding c) s.monkey = 0 by omega) t
  rwa [holding, Bool.toNat_eq_zero] at hzero

/-- The holder of `ballCheckingMutex` has a step. -/
theorem Balanced.unblocked (h : Balanced s) (ht : (s.monkey t).checks = true) :
    (lifeStep s.globals (s.monkey t)).isSome = true := by
  generalize hx : s.monkey t = x at ht
  cases x with
  | unborn => cases ht
  | alive mon p =>
    cases p with
    | waitFirst =>
      have hfree := (h.free.1 hx).1
      rw [lifeStep, placeStep, if_pos (by omega)]
      rfl
    | waitSecond =>
      have hfree := h.free.2 hx
      rw [lifeStep, placeStep, if_pos (by omega)]
      rfl
    | getFirst | getSecond | testBalls | postChecking | postRetry => rfl
    | _ => cases ht

variable [DecidableEq T]

omit [Fintype T] in
/-- A change of one monkey keeps the balls of all distinct. -/
theorem distinct_update {y : Life} (h : ∀ t, (s.monkey t).Distinct) (hy : y.Distinct) (u : T) :
    (Function.update s.monkey t y u).Distinct := by
  by_cases hut : u = t
  · rw [hut, Function.update_self]
    exact hy
  · rw [Function.update_of_ne hut]
    exact h u

/-- Every step keeps the invariant. -/
theorem Balanced.effect (h : Balanced s) (he : Effect s e s') : Balanced s' := by
  cases he with
  | @main rand g y hspawn =>
    obtain ⟨hballs, hmutex, hroom⟩ := spawn_frame hspawn
    constructor
    · show Room.checking.Inv _ _ _
      rw [hballs, hmutex]
      exact h.checking
    · intro c
      show _ + tally (holding c) s.monkey = 1
      rw [hballs]
      exact h.balls c
    · have hold := h.room
      show g.bowls.maxMonkeys + y.spawning + tally staying s.monkey = MAX_MONKEYS
      omega
    · exact h.distinct
    · exact distinct_spawn hspawn h.drawn
  | @create t mon hmain hunborn =>
    have hmove : Room.checking.Move s.globals.ballCheckingMutex s.globals.balls (s.monkey t)
        s.globals.ballCheckingMutex s.globals.balls (.alive mon .newMonkey) := by
      rw [hunborn]
      exact .same rfl rfl rfl
    constructor
    · exact h.checking.move hmove
    · intro c
      have htally := tally_update (holding c) s.monkey t (.alive mon .newMonkey)
      rw [hunborn] at htally
      exact (congrArg _ htally).trans (h.balls c)
    · -- the unit of `main` passes to the monkey
      have htally := tally_update staying s.monkey t (.alive mon .newMonkey)
      have hold := h.room
      rw [hunborn, show staying .unborn = 0 from rfl,
        show staying (.alive mon .newMonkey) = 1 from rfl] at htally
      rw [hmain, show (MainPos.create mon).spawning = 1 from rfl] at hold
      show s.globals.bowls.maxMonkeys + 0 + tally staying (Function.update _ _ _) = MAX_MONKEYS
      omega
    · have hdrawn := h.drawn
      rw [hmain] at hdrawn
      exact distinct_update h.distinct hdrawn
    · exact trivial
  | @monkey t mon g p p' hp hact =>
    have hdistinct := h.distinct t
    rw [hp] at hdistinct
    -- a ball that the monkey holds is not free
    have hone : ∀ c, s.globals.balls c + holding c (.alive mon p) ≤ 1 := by
      intro c
      have hle := le_tally (holding c) s.monkey t
      have hballs := h.balls c
      rw [hp] at hle
      omega
    have hmove := checking_act hact hdistinct hone
    rw [← hp] at hmove
    constructor
    · exact h.checking.move hmove
    · intro c
      have htally := tally_update (holding c) s.monkey t (.alive mon p')
      have hheld := holding_act hact hdistinct c
      have hballs := h.balls c
      rw [hp] at htally
      show g.balls c + tally (holding c) (Function.update _ _ _) = 1
      omega
    · have htally := tally_update staying s.monkey t (.alive mon p')
      have hstays := staying_act hact
      have hold := h.room
      rw [hp] at htally
      show g.bowls.maxMonkeys + s.main.spawning + tally staying (Function.update _ _ _) =
        MAX_MONKEYS
      omega
    · exact distinct_update h.distinct hdistinct
    · exact h.drawn
  | trainer hfeed =>
    have hroom := h.room
    rw [← feed_frame hfeed] at hroom
    exact ⟨h.checking, h.balls, hroom, h.distinct, h.drawn⟩

/-- The invariant holds in every run. -/
theorem balanced_of_run (hrun : Run (StepBy step) (start T) τ s) : Balanced s :=
  hrun.invariant (fun _ s => Balanced s) balanced_start
    fun _ hbalanced hstep => hbalanced.effect (effect_of_step hstep)

/-- A monkey that has a ball holds it or is about to take it. -/
theorem holds_or_second {x : Life} (h : x.has c = true) :
    x.holds c = true ∨ ∃ mon, x = .alive mon .waitSecond ∧ mon.secondball = c := by
  cases x with
  | unborn => cases h
  | alive mon p =>
    cases p with
    | waitSecond =>
      rcases of_decide_eq_true h with hfirst | hsecond
      · exact .inl (decide_eq_true hfirst)
      · exact .inr ⟨mon, rfl, hsecond⟩
    | postChecking | takesFirstBall | takesSecondBall | postFirst | postSecond => exact .inl h
    | _ => cases h

/-- Two monkeys do not have one ball. -/
theorem Balanced.unique (h : Balanced s) (ht : (s.monkey t).has c = true)
    (hu : (s.monkey u).has c = true) : t = u := by
  have hnobody : ∀ {t u mon}, s.monkey t = .alive mon .waitSecond → mon.secondball = c →
      (s.monkey u).holds c = true → False := by
    intro t u mon ht hc hu
    have hfree := h.not_holds (hc ▸ h.free.2 ht) u
    rw [hfree] at hu
    cases hu
  rcases holds_or_second ht with ht | ⟨mon, ht, hc⟩
  · rcases holds_or_second hu with hu | ⟨mon', hu, hc'⟩
    · have hballs := h.balls c
      refine unique_of_tally_le_one (show tally (holding c) s.monkey ≤ 1 by omega) ?_ ?_
      · rw [holding, ht]
        exact Nat.one_pos
      · rw [holding, hu]
        exact Nat.one_pos
    · exact absurd ht (hnobody hu hc')
  · rcases holds_or_second hu with hu | ⟨mon', hu, hc'⟩
    · exact absurd hu (hnobody ht hc)
    · -- both hold the mutex
      exact h.checking.unique (by rw [ht]; rfl) (by rw [hu]; rfl)

/-- What the monkeys rely on in the room. -/
structure SharesRight (s : State T) : Prop where
  distinct : ∀ t mon p, s.monkey t = .alive mon p → mon.firstball ≠ mon.secondball
  value : ∀ c, s.globals.balls c = 0 ∨ s.globals.balls c = 1
  /-- Two monkeys do not have balls of one colour. -/
  share : ∀ c t u, (s.monkey t).has c = true → (s.monkey u).has c = true → t = u
  /-- A monkey that has read 1 for both balls finds them free. -/
  first : ∀ t mon, s.monkey t = .alive mon .waitFirst → 0 < s.globals.balls mon.firstball
  second : ∀ t mon, s.monkey t = .alive mon .waitSecond → 0 < s.globals.balls mon.secondball
  unblocked : ∀ t, (s.monkey t).checks = true → (lifeStep s.globals (s.monkey t)).isSome = true
  room : (Finset.univ.filter fun t => (s.monkey t).inRoom = true).card ≤ MAX_MONKEYS

/-- For any number of monkeys, whatever `main` draws, in every interleaving. -/
theorem balls_shared (hrun : Run (StepBy step) (start T) τ s) : SharesRight s := by
  have h := balanced_of_run hrun
  constructor
  · intro t mon p ht
    have hdistinct := h.distinct t
    rwa [ht] at hdistinct
  · intro c
    have hballs := h.balls c
    omega
  · intro c t u ht hu
    exact h.unique ht hu
  · intro t mon ht
    have hfree := (h.free.1 ht).1
    omega
  · intro t mon ht
    have hfree := h.free.2 ht
    omega
  · intro t ht
    exact h.unblocked ht
  · have hroom := h.room
    rw [card_filter_eq_tally]
    show tally staying s.monkey ≤ MAX_MONKEYS
    omega

end Runs

/-- `main` spawns a monkey: the draws of the two colours and of the time, and `modifyValue`. -/
def spawned {n : Nat} (t : Fin n) (firstball secondball : Nat) : List (Turn (Fin n)) :=
  [.main 0, .main firstball, .main secondball, .main 0] ++ List.replicate 5 (.main 0) ++ [.create t]

/-- Two monkeys come that both need the red ball: the first one has it, and the second one has to
look again. -/
theorem balls_shared_two :
    ∃ (τ : List (Turn (Fin 2))) (s : State (Fin 2)), Run (StepBy step) (start (Fin 2)) τ s ∧
      s.monkey 0 = .alive ⟨1, .red, .green, 1000⟩ .takesFirstBall ∧
      s.monkey 1 = .alive ⟨2, .blue, .red, 1000⟩ .postRetry ∧ SharesRight s := by
  let l : List (Turn (Fin 2)) := spawned 0 4 1 ++ spawned 1 2 0 ++
    List.replicate 9 (.monkey 0) ++ List.replicate 6 (.monkey 1)
  let r := (perform step [] (start (Fin 2)) l).get (by decide)
  have hrun : Run (StepBy step) (start (Fin 2)) r.1 r.2 := run_of_get _
  exact ⟨r.1, r.2, hrun, by decide, by decide, balls_shared hrun⟩

end EE516.TrainingMonkeys.Room
