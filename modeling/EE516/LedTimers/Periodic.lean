import Mathlib.Data.Nat.Bits
import EE516.Foundations.Run
import EE516.LedTimers.Board

/-!
# The four periods of `project5/task2_2`

Each LED has a timer that its handler arms again, from the load of the module to its unload. The
handlers run to their ends, one at a time, between any two iterations of the loop of `start_timer`
and between any two steps of `stop_timer`. When the kernel calls the handler of an expired timer is
up to the kernel; the frequency `HZ` of the jiffies is a parameter.
-/

set_option autoImplicit false

namespace EE516.LedTimers.Periodic

open EE516.Foundations

/-- Where the load or the unload of the module stands. -/
inductive Phase where
  /-- the loop of `start_timer` comes to the LED `i` -/
  | starting (i : Nat)
  | running
  /-- `del_timer(&timerFactor[i])` -/
  | deleting (i : Nat)
  /-- `gpio_set_value(LED0_GPIO+i,0)` -/
  | darkening (i : Nat)
  | unloaded
  deriving DecidableEq, Repr

/-- The time, the timers, the LEDs, and how far the module is. -/
structure State where
  jiffies : Nat
  timerFactor : Nat → Timer
  led : Nat → Nat
  phase : Phase

/-- The loop of `init_gpios` from the LED `i` on, with `n` LEDs to go: an invalid line ends it, and
a LED whose line is refused stays as it is. -/
def initGpiosFrom (valid : Nat → Bool) (ret : Nat → Int) :
    Nat → Nat → (Nat → Nat) → Nat → Nat
  | 0, _, led => led
  | n + 1, i, led =>
    if valid i then
      initGpiosFrom valid ret n (i + 1) (if ret i < 0 then led else Function.update led i 0)
    else led

/-- With the results of `gpio_is_valid` and of `gpio_request`. -/
def init_gpios (valid : Nat → Bool) (ret : Nat → Int) (led : Nat → Nat) : Nat → Nat :=
  initGpiosFrom valid ret NUM_LED 0 led

/-- The state at the call of `start_timer`. -/
def loaded (jiffies : Nat) (valid : Nat → Bool) (ret : Nat → Int) (led : Nat → Nat) : State where
  jiffies := jiffies
  timerFactor _ := .zero
  led := init_gpios valid ret led
  phase := .starting 0

/-- The time from an expiry of the timer to the next one. -/
def period (HZ ptr : Nat) : Nat := (ptr + 1) * HZ / 10

/-- The handler; an `add_timer` of a pending timer stops the kernel. -/
def timer_timeout (HZ : Nat) (s : State) (ptr : Nat) : Option State :=
  if ptr < 4 then
    let cur := s.led ptr
    let led := Function.update s.led ptr (if cur = 0 then 1 else 0)
    let timer := { s.timerFactor ptr with expires := s.jiffies + period HZ ptr }
    if timer.pending then none
    else some { s with led, timerFactor := Function.update s.timerFactor ptr timer.add_timer }
  else some s

/-- The body of the loop of `start_timer`. -/
def startOne (HZ : Nat) (s : State) (i : Nat) : State :=
  let timer := (s.timerFactor i).init_timer
  let timer := { timer with expires := s.jiffies + period HZ i, data := i }
  { s with timerFactor := Function.update s.timerFactor i timer.add_timer }

/-- What happens next. -/
inductive Action where
  | tick
  /-- the next iteration of `start_timer` -/
  | start
  | expire (i : Nat)
  | exit
  /-- the next step of `stop_timer` -/
  | stop
  deriving DecidableEq, Repr

/-- What a step was. -/
inductive Event where
  | tick
  | start (i jiffies : Nat)
  | expire (i : Nat)
  | exit
  | stop
  deriving DecidableEq, Repr

/-- One step of the module or of the kernel below it. -/
def step (HZ : Nat) (s : State) : Action → Option (Event × State)
  | .tick => some (.tick, { s with jiffies := s.jiffies + 1 })
  | .start =>
    match s.phase with
    | .starting i =>
      some (.start i s.jiffies, { startOne HZ s i with
        phase := if i + 1 < NUM_LED then .starting (i + 1) else .running })
    | _ => none
  | .expire i =>
    if i < NUM_LED ∧ (s.timerFactor i).pending = true ∧ (s.timerFactor i).expires ≤ s.jiffies then
      (timer_timeout HZ
        { s with timerFactor := Function.update s.timerFactor i (s.timerFactor i).detach }
        (s.timerFactor i).data).map fun s' => (.expire i, s')
    else none
  | .exit =>
    match s.phase with
    | .running => some (.exit, { s with phase := .deleting 0 })
    | _ => none
  | .stop =>
    match s.phase with
    | .deleting i =>
      some (.stop, { s with
        timerFactor := Function.update s.timerFactor i (s.timerFactor i).del_timer
        phase := .darkening i })
    | .darkening i =>
      some (.stop, { s with
        led := Function.update s.led i 0
        phase := if i + 1 < NUM_LED then .deleting (i + 1) else .unloaded })
    | _ => none

/-! ## Reading a history -/

/-- When the timer of the LED was armed first. -/
def startTime (i : Nat) : List Event → Option Nat
  | [] => none
  | .start j jiffies :: τ => if j = i then some jiffies else startTime i τ
  | _ :: τ => startTime i τ

/-- How often the handler of the timer ran. -/
def flips (i : Nat) : List Event → Nat
  | [] => 0
  | .expire j :: τ => if j = i then flips i τ + 1 else flips i τ
  | _ :: τ => flips i τ

/-- The timer of the LED is armed. -/
def Phase.armed (i : Nat) : Phase → Bool
  | .starting j => decide (i < j)
  | .running => true
  | .deleting j => decide (j ≤ i)
  | .darkening j => decide (j < i)
  | .unloaded => false

/-- `stop_timer` has turned the LED off. -/
def Phase.dark (i : Nat) : Phase → Bool
  | .deleting j | .darkening j => decide (i < j)
  | .unloaded => true
  | .starting _ | .running => false

/-- The LED is on. -/
def State.on (s : State) (i : Nat) : Bool := decide (s.led i ≠ 0)

/-- The index of a loop is that of a LED. -/
def Phase.Valid : Phase → Prop
  | .starting i | .deleting i | .darkening i => i < NUM_LED
  | .running | .unloaded => True

theorem flips_start (i j jiffies : Nat) (τ : List Event) :
    flips i (.start j jiffies :: τ) = flips i τ := rfl

variable {HZ i t : Nat} {s s' : State} {e : Event} {τ : List Event} {on₀ : Nat → Bool}

/-- What holds in every state; `on₀` are the LEDs that were on at the beginning. -/
structure Inv (HZ : Nat) (on₀ : Nat → Bool) (τ : List Event) (s : State) : Prop where
  valid : s.phase.Valid
  pending : ∀ i < NUM_LED, (s.timerFactor i).pending = s.phase.armed i
  data : ∀ i < NUM_LED, s.phase.armed i = true → (s.timerFactor i).data = i
  lit : ∀ i < NUM_LED, s.phase.dark i = false →
    s.on i = (on₀ i ^^ (flips i τ).bodd)
  dark : ∀ i < NUM_LED, s.phase.dark i = true → s.led i = 0
  fresh : ∀ j, s.phase = .starting j → ∀ i, j ≤ i → startTime i τ = none
  unstarted : ∀ i < NUM_LED, startTime i τ = none → flips i τ = 0 ∧ s.phase.armed i = false
  elapsed : ∀ i < NUM_LED, ∀ t, startTime i τ = some t → t + flips i τ * period HZ i ≤ s.jiffies
  due : ∀ i < NUM_LED, ∀ t, startTime i τ = some t → s.phase.armed i = true →
    t + (flips i τ + 1) * period HZ i ≤ (s.timerFactor i).expires

/-! ## Steps -/

/-- What a step does, when the data of the timers are the numbers of their LEDs. -/
inductive Effect (HZ : Nat) (s : State) : Event → State → Prop
  | tick : Effect HZ s .tick { s with jiffies := s.jiffies + 1 }
  | start {i : Nat} (hphase : s.phase = .starting i) :
      Effect HZ s (.start i s.jiffies) { s with
        timerFactor := Function.update s.timerFactor i ⟨true, s.jiffies + period HZ i, i⟩
        phase := if i + 1 < NUM_LED then .starting (i + 1) else .running }
  | expire {i : Nat} (hi : i < NUM_LED) (hpending : (s.timerFactor i).pending = true)
      (hdue : (s.timerFactor i).expires ≤ s.jiffies) :
      Effect HZ s (.expire i) { s with
        led := Function.update s.led i (if s.led i = 0 then 1 else 0)
        timerFactor := Function.update s.timerFactor i ⟨true, s.jiffies + period HZ i, i⟩ }
  | exit (hphase : s.phase = .running) : Effect HZ s .exit { s with phase := .deleting 0 }
  | delete {i : Nat} (hphase : s.phase = .deleting i) :
      Effect HZ s .stop { s with
        timerFactor := Function.update s.timerFactor i (s.timerFactor i).del_timer
        phase := .darkening i }
  | darken {i : Nat} (hphase : s.phase = .darkening i) :
      Effect HZ s .stop { s with
        led := Function.update s.led i 0
        phase := if i + 1 < NUM_LED then .deleting (i + 1) else .unloaded }

/-- The handler of an expired timer runs to its end. -/
theorem expire_eq (hi : i < NUM_LED) (hpending : (s.timerFactor i).pending = true)
    (hdue : (s.timerFactor i).expires ≤ s.jiffies) (hdata : (s.timerFactor i).data = i) :
    step HZ s (.expire i) = some (.expire i, { s with
      led := Function.update s.led i (if s.led i = 0 then 1 else 0)
      timerFactor := Function.update s.timerFactor i ⟨true, s.jiffies + period HZ i, i⟩ }) := by
  have hlt : i < 4 := hi
  simp [step, hi, hpending, hdue, timer_timeout, hdata, hlt, Timer.detach, Timer.add_timer]

theorem Inv.effect_of_step (h : Inv HZ on₀ τ s) (hstep : StepBy (step HZ) s e s') :
    Effect HZ s e s' := by
  obtain ⟨a, ha⟩ := hstep
  cases a with
  | tick =>
    cases ha
    exact .tick
  | start =>
    cases hphase : s.phase with
    | starting i =>
      simp only [step, hphase, startOne, Timer.add_timer] at ha
      cases ha
      exact .start hphase
    | running | deleting | darkening | unloaded =>
      simp only [step, hphase] at ha
      cases ha
  | expire i =>
    by_cases hguard : i < NUM_LED ∧ (s.timerFactor i).pending = true ∧
        (s.timerFactor i).expires ≤ s.jiffies
    · obtain ⟨hi, hpending, hdue⟩ := hguard
      have harmed := (h.pending i hi).symm.trans hpending
      rw [expire_eq hi hpending hdue (h.data i hi harmed)] at ha
      cases ha
      exact .expire hi hpending hdue
    · rw [step, if_neg hguard] at ha
      cases ha
  | exit =>
    cases hphase : s.phase with
    | running =>
      simp only [step, hphase] at ha
      cases ha
      exact .exit hphase
    | starting | deleting | darkening | unloaded =>
      simp only [step, hphase] at ha
      cases ha
  | stop =>
    cases hphase : s.phase with
    | deleting i =>
      simp only [step, hphase] at ha
      cases ha
      exact .delete hphase
    | darkening i =>
      simp only [step, hphase] at ha
      cases ha
      exact .darken hphase
    | starting | running | unloaded =>
      simp only [step, hphase] at ha
      cases ha

theorem inv_loaded (jiffies : Nat) (valid : Nat → Bool) (ret : Nat → Int) (led : Nat → Nat) :
    Inv HZ (loaded jiffies valid ret led).on [] (loaded jiffies valid ret led) where
  valid := show 0 < NUM_LED by decide
  pending i _ := by simp [loaded, Timer.zero, Phase.armed]
  data i _ harmed := by simp [loaded, Phase.armed] at harmed
  lit i _ _ := by simp [flips]
  dark i _ hdark := by cases hdark
  fresh _ _ _ _ := rfl
  unstarted i _ _ := ⟨rfl, by simp [loaded, Phase.armed]⟩
  elapsed _ _ _ ht := by cases ht
  due _ _ _ ht := by cases ht

/-- The loop of `start_timer` has come to its end, or to the next LED. -/
theorem armed_start (hj : s.phase = .starting t) (hi : i < NUM_LED) :
    (if t + 1 < NUM_LED then Phase.starting (t + 1) else .running).armed i =
      (decide (i = t) || s.phase.armed i) := by
  rw [hj]
  split
  · simp only [Phase.armed]
    rw [← Bool.decide_or, decide_eq_decide]
    omega
  · simp only [Phase.armed]
    rw [← Bool.decide_or, eq_comm, decide_eq_true_eq]
    omega

/-- `start_timer` arms one timer. -/
theorem Inv.step_start {j : Nat} (h : Inv HZ on₀ τ s) (hphase : s.phase = .starting j) :
    Inv HZ on₀ (.start j s.jiffies :: τ) { s with
      timerFactor := Function.update s.timerFactor j ⟨true, s.jiffies + period HZ j, j⟩
      phase := if j + 1 < NUM_LED then .starting (j + 1) else .running } where
  valid := by
    dsimp only
    split
    · assumption
    · trivial
  pending i hi := by
    rw [armed_start hphase hi]
    by_cases hij : i = j
    · subst hij
      simp
    · simpa [hij] using h.pending i hi
  data i hi harmed := by
    rw [armed_start hphase hi] at harmed
    by_cases hij : i = j
    · subst hij
      simp
    · simpa [hij] using h.data i hi (by simpa [hij] using harmed)
  lit i hi _ := h.lit i hi (by rw [hphase]; rfl)
  dark i hi hdark := by
    dsimp only at hdark
    split at hdark <;> cases hdark
  fresh k hk i hki := by
    dsimp only at hk
    split at hk
    · cases hk
      rw [startTime, if_neg (by omega)]
      exact h.fresh j hphase i (by omega)
    · cases hk
  unstarted i hi hnone := by
    rw [startTime] at hnone
    split at hnone
    · cases hnone
    · rename_i hji
      have hij : i ≠ j := fun h => hji h.symm
      -- the timers behind the one that is started wait for their turn
      obtain ⟨hzero, hidle⟩ := h.unstarted i hi hnone
      refine ⟨hzero, ?_⟩
      rw [armed_start hphase hi, hidle]
      simpa using hij
  elapsed i hi t ht := by
    rw [startTime] at ht
    split at ht
    · rename_i hji
      subst hji
      cases ht
      -- the timer that is started has not expired yet
      have hzero := (h.unstarted j hi (h.fresh j hphase j (le_refl j))).1
      rw [flips_start, hzero, Nat.zero_mul]
      exact le_refl _
    · exact h.elapsed i hi t ht
  due i hi t ht harmed := by
    rw [armed_start hphase hi] at harmed
    rw [startTime] at ht
    split at ht
    · rename_i hji
      subst hji
      cases ht
      have hzero := (h.unstarted j hi (h.fresh j hphase j (le_refl j))).1
      rw [flips_start, hzero]
      simp
    · rename_i hji
      have hij : i ≠ j := fun h => hji h.symm
      rw [flips_start]
      simpa [hij] using h.due i hi t ht (by simpa [hij] using harmed)

theorem Inv.step_tick (h : Inv HZ on₀ τ s) :
    Inv HZ on₀ (.tick :: τ) { s with jiffies := s.jiffies + 1 } where
  valid := h.valid
  pending := h.pending
  data := h.data
  lit := h.lit
  dark := h.dark
  fresh := h.fresh
  unstarted := h.unstarted
  elapsed i hi t ht := Nat.le_succ_of_le (h.elapsed i hi t ht)
  due := h.due

/-- A LED whose timer is armed has not been turned off. -/
theorem dark_of_armed {p : Phase} (harmed : p.armed i = true) : p.dark i = false := by
  cases p with
  | starting | running => rfl
  | deleting j | darkening j =>
    simp only [Phase.armed, Phase.dark, decide_eq_true_eq, decide_eq_false_iff_not] at harmed ⊢
    omega
  | unloaded => cases harmed

/-- A handler flips its LED and arms its timer again. -/
theorem Inv.step_expire {j : Nat} (h : Inv HZ on₀ τ s) (hj : j < NUM_LED)
    (hpending : (s.timerFactor j).pending = true) (hdue : (s.timerFactor j).expires ≤ s.jiffies) :
    Inv HZ on₀ (.expire j :: τ) { s with
      led := Function.update s.led j (if s.led j = 0 then 1 else 0)
      timerFactor := Function.update s.timerFactor j ⟨true, s.jiffies + period HZ j, j⟩ } := by
  have harmed : s.phase.armed j = true := (h.pending j hj).symm.trans hpending
  -- the next expiry of the timer is a period after this one, which was not early
  have hnext : ∀ t, startTime j τ = some t →
      t + (flips j τ + 1) * period HZ j ≤ s.jiffies := fun t ht =>
    (h.due j hj t ht harmed).trans hdue
  have hflips : flips j (.expire j :: τ) = flips j τ + 1 := if_pos rfl
  have hother : ∀ i, i ≠ j → flips i (.expire j :: τ) = flips i τ := fun i hij =>
    if_neg fun heq => hij heq.symm
  refine ⟨h.valid, fun i hi => ?_, fun i hi hon => ?_, fun i hi hlit => ?_, fun i hi hdark => ?_,
    h.fresh, fun i hi hnone => ?_, fun i hi t ht => ?_, fun i hi t ht hon => ?_⟩
  · by_cases hij : i = j
    · subst hij
      simpa using harmed.symm
    · simpa [hij] using h.pending i hi
  · by_cases hij : i = j
    · subst hij
      simp
    · simpa [hij] using h.data i hi hon
  · by_cases hij : i = j
    · -- the LED changes, and so does the parity
      subst hij
      have hold := h.lit i hi hlit
      rw [hflips, Nat.bodd_succ, Bool.xor_not, ← hold]
      by_cases hled : s.led i = 0
      · simp [State.on, hled]
      · simp [State.on, hled]
    · rw [hother i hij]
      simpa [State.on, hij] using h.lit i hi hlit
  · by_cases hij : i = j
    · subst hij
      rw [dark_of_armed harmed] at hdark
      cases hdark
    · simpa [hij] using h.dark i hi hdark
  · obtain ⟨hzero, hidle⟩ := h.unstarted i hi hnone
    by_cases hij : i = j
    · subst hij
      rw [harmed] at hidle
      cases hidle
    · exact ⟨(hother i hij).trans hzero, hidle⟩
  · by_cases hij : i = j
    · subst hij
      rw [hflips]
      exact hnext t ht
    · rw [hother i hij]
      exact h.elapsed i hi t ht
  · by_cases hij : i = j
    · subst hij
      have hle := hnext t ht
      rw [hflips, Nat.succ_mul]
      simp only [Function.update_self]
      omega
    · rw [hother i hij]
      simpa [hij] using h.due i hi t ht hon

theorem Inv.step_exit (h : Inv HZ on₀ τ s) (hphase : s.phase = .running) :
    Inv HZ on₀ (.exit :: τ) { s with phase := .deleting 0 } := by
  have harmed : ∀ i, (Phase.deleting 0).armed i = s.phase.armed i := fun i => by
    rw [hphase]
    simp [Phase.armed]
  refine ⟨show 0 < NUM_LED by decide, fun i hi => ?_, fun i hi hon => ?_, fun i hi _ => ?_,
    fun i hi hdark => ?_, fun j hj => ?_, fun i hi hnone => ?_, h.elapsed, fun i hi t ht hon => ?_⟩
  · rw [harmed]
    exact h.pending i hi
  · rw [harmed] at hon
    exact h.data i hi hon
  · exact h.lit i hi (by rw [hphase]; rfl)
  · simp [Phase.dark] at hdark
  · cases hj
  · rw [harmed]
    exact h.unstarted i hi hnone
  · rw [harmed] at hon
    exact h.due i hi t ht hon

/-- `stop_timer` detaches one timer. -/
theorem Inv.step_delete {j : Nat} (h : Inv HZ on₀ τ s) (hphase : s.phase = .deleting j) :
    Inv HZ on₀ (.stop :: τ) { s with
      timerFactor := Function.update s.timerFactor j (s.timerFactor j).del_timer
      phase := .darkening j } := by
  have harmed : ∀ i, i ≠ j → (Phase.darkening j).armed i = s.phase.armed i := fun i hij => by
    rw [hphase]
    simp only [Phase.armed, decide_eq_decide]
    omega
  have hself : (Phase.darkening j).armed j = false := by simp [Phase.armed]
  have hdark : ∀ i, (Phase.darkening j).dark i = s.phase.dark i := fun i => by rw [hphase]; rfl
  have hvalid := h.valid
  rw [hphase] at hvalid
  refine ⟨hvalid, fun i hi => ?_, fun i hi hon => ?_, fun i hi hlit => ?_, fun i hi hoff => ?_,
    fun k hk => ?_, fun i hi hnone => ?_, h.elapsed, fun i hi t ht hon => ?_⟩
  · by_cases hij : i = j
    · subst hij
      simp [hself]
    · rw [harmed i hij]
      simpa [hij] using h.pending i hi
  · by_cases hij : i = j
    · subst hij
      rw [hself] at hon
      cases hon
    · rw [harmed i hij] at hon
      simpa [hij] using h.data i hi hon
  · rw [hdark] at hlit
    exact h.lit i hi hlit
  · rw [hdark] at hoff
    exact h.dark i hi hoff
  · cases hk
  · obtain ⟨hzero, hidle⟩ := h.unstarted i hi hnone
    refine ⟨hzero, ?_⟩
    by_cases hij : i = j
    · rw [hij, hself]
    · rw [harmed i hij, hidle]
  · by_cases hij : i = j
    · subst hij
      rw [hself] at hon
      cases hon
    · rw [harmed i hij] at hon
      simpa [flips, hij] using h.due i hi t ht hon

/-- `stop_timer` turns one LED off. -/
theorem Inv.step_darken {j : Nat} (h : Inv HZ on₀ τ s) (hphase : s.phase = .darkening j) :
    Inv HZ on₀ (.stop :: τ) { s with
      led := Function.update s.led j 0
      phase := if j + 1 < NUM_LED then .deleting (j + 1) else .unloaded } := by
  have hvalid := h.valid
  rw [hphase] at hvalid
  have hbound : j < NUM_LED := hvalid
  -- which timers are armed does not change, and one more LED is off
  have harmed : ∀ i < NUM_LED,
      (if j + 1 < NUM_LED then Phase.deleting (j + 1) else .unloaded).armed i =
        s.phase.armed i := fun i hi => by
    rw [hphase]
    split
    · simp only [Phase.armed, decide_eq_decide]
      omega
    · simp only [Phase.armed]
      rw [eq_comm, decide_eq_false_iff_not]
      omega
  have hdark : ∀ i < NUM_LED,
      (if j + 1 < NUM_LED then Phase.deleting (j + 1) else .unloaded).dark i =
        (decide (i = j) || s.phase.dark i) := fun i hi => by
    rw [hphase]
    split
    · simp only [Phase.dark]
      rw [← Bool.decide_or, decide_eq_decide]
      omega
    · simp only [Phase.dark]
      rw [← Bool.decide_or, eq_comm, decide_eq_true_eq]
      omega
  refine ⟨?_, fun i hi => ?_, fun i hi hon => ?_, fun i hi hlit => ?_, fun i hi hoff => ?_,
    fun k hk => ?_, fun i hi hnone => ?_, h.elapsed, fun i hi t ht hon => ?_⟩
  · dsimp only
    split
    · assumption
    · trivial
  · rw [harmed i hi]
    exact h.pending i hi
  · rw [harmed i hi] at hon
    exact h.data i hi hon
  · rw [hdark i hi, Bool.or_eq_false_iff, decide_eq_false_iff_not] at hlit
    simpa [flips, State.on, hlit.1] using h.lit i hi hlit.2
  · by_cases hij : i = j
    · subst hij
      simp
    · rw [hdark i hi] at hoff
      simpa [hij] using h.dark i hi (by simpa [hij] using hoff)
  · dsimp only at hk
    split at hk <;> cases hk
  · rw [harmed i hi]
    exact h.unstarted i hi hnone
  · rw [harmed i hi] at hon
    exact h.due i hi t ht hon

/-- Every step keeps the invariant. -/
theorem Inv.step (h : Inv HZ on₀ τ s) (hstep : StepBy (step HZ) s e s') :
    Inv HZ on₀ (e :: τ) s' := by
  cases h.effect_of_step hstep with
  | tick => exact h.step_tick
  | start hphase => exact h.step_start hphase
  | expire hi hpending hdue => exact h.step_expire hi hpending hdue
  | exit hphase => exact h.step_exit hphase
  | delete hphase => exact h.step_delete hphase
  | darken hphase => exact h.step_darken hphase

/-! ## Runs -/

variable {jiffies : Nat} {valid : Nat → Bool} {ret : Nat → Int} {led : Nat → Nat}

/-- Whenever the handlers run: until it is turned off, a LED is as many flips away from what it was
at the load as its timer has expired; the timer has expired at most once in each of its periods; its
handler never arms a pending timer; and after the unload the LEDs are off and no timer is pending,
so no handler of the removed module is called. -/
theorem leds_blink (hrun : Run (StepBy (step HZ)) (loaded jiffies valid ret led) τ s)
    (hi : i < NUM_LED) :
    (s.phase.dark i = false →
      s.on i = ((loaded jiffies valid ret led).on i ^^ (flips i τ).bodd)) ∧
    (∀ t, startTime i τ = some t → t + flips i τ * period HZ i ≤ s.jiffies) ∧
    ((s.timerFactor i).pending = true → (s.timerFactor i).expires ≤ s.jiffies →
      (step HZ s (.expire i)).isSome = true) ∧
    (s.phase = .unloaded → s.led i = 0 ∧ (s.timerFactor i).pending = false) := by
  have h : Inv HZ (loaded jiffies valid ret led).on τ s :=
    hrun.invariant (fun τ s => Inv HZ (loaded jiffies valid ret led).on τ s)
      (inv_loaded jiffies valid ret led) fun _ ih hstep => ih.step hstep
  refine ⟨h.lit i hi, h.elapsed i hi, fun hpending hdue => ?_, fun hunloaded => ?_⟩
  · rw [expire_eq hi hpending hdue (h.data i hi ((h.pending i hi).symm.trans hpending))]
    rfl
  · exact ⟨h.dark i hi (by rw [hunloaded]; rfl), by rw [h.pending i hi, hunloaded]; rfl⟩

/-- LED 0 blinks late, once in three jiffies, and the module is unloaded. -/
theorem leds_blink_unload :
    ∃ (τ : List Event) (s : State),
      Run (StepBy (step 10)) (loaded 0 (fun _ => true) (fun _ => 0) fun _ => 1) τ s ∧
      flips 0 τ = 1 ∧ s.led 0 = 0 ∧ (s.timerFactor 0).pending = false := by
  let actions : List Action := [.start, .start, .start, .start, .tick, .tick, .tick, .expire 0,
    .exit, .stop, .stop, .stop, .stop, .stop, .stop, .stop, .stop]
  let r := (perform (step 10) [] (loaded 0 (fun _ => true) (fun _ => 0) fun _ => 1) actions).get
    (by decide)
  have hrun : Run (StepBy (step 10)) (loaded 0 (fun _ => true) (fun _ => 0) fun _ => 1) r.1 r.2 :=
    run_of_get _
  obtain ⟨-, -, -, hunloaded⟩ := leds_blink (i := 0) hrun (by decide)
  obtain ⟨hled, hpending⟩ := hunloaded (by decide)
  exact ⟨r.1, r.2, hrun, by decide, hled, hpending⟩

/-- The jiffies go on only when no timer is due, so no handler is late. -/
def Timely (s : State) : Event → Prop
  | .tick => ∀ i < NUM_LED, (s.timerFactor i).pending = true →
      s.jiffies < (s.timerFactor i).expires
  | _ => True

instance (s : State) : DecidablePred (Timely s)
  | .tick => inferInstanceAs (Decidable (∀ i < NUM_LED, (s.timerFactor i).pending = true →
      s.jiffies < (s.timerFactor i).expires))
  | .start _ _ | .expire _ | .exit | .stop => .isTrue trivial

/-- An armed timer expires a whole number of periods after its start. -/
def Punctual (HZ : Nat) (τ : List Event) (s : State) : Prop :=
  ∀ i < NUM_LED, s.phase.armed i = true → s.jiffies ≤ (s.timerFactor i).expires ∧
    ∀ t, startTime i τ = some t → (s.timerFactor i).expires = t + (flips i τ + 1) * period HZ i

/-- A step that arms no timer. -/
theorem Punctual.keep (h : Punctual HZ τ s)
    (harmed : ∀ i < NUM_LED, s'.phase.armed i = true → s.phase.armed i = true ∧
      s'.timerFactor i = s.timerFactor i)
    (hjiffies : ∀ i < NUM_LED, s.phase.armed i = true → s'.jiffies ≤ (s.timerFactor i).expires)
    (hstart : ∀ i, startTime i (e :: τ) = startTime i τ)
    (hflips : ∀ i, flips i (e :: τ) = flips i τ) : Punctual HZ (e :: τ) s' := by
  intro i hi hon
  obtain ⟨hon, htimer⟩ := harmed i hi hon
  rw [htimer, hstart, hflips]
  exact ⟨hjiffies i hi hon, (h i hi hon).2⟩

/-- With handlers on time every step keeps the timers punctual. -/
theorem Punctual.step (h : Punctual HZ τ s) (hinv : Inv HZ on₀ τ s)
    (hstep : StepBy (step HZ) s e s') (htimely : Timely s e) : Punctual HZ (e :: τ) s' := by
  cases hinv.effect_of_step hstep with
  | tick =>
    -- the clock goes on only while nothing is due
    refine h.keep (fun i hi hon => ⟨hon, rfl⟩) (fun i hi hon => ?_) (fun _ => rfl) fun _ => rfl
    exact htimely i hi ((hinv.pending i hi).trans hon)
  | @start j hphase =>
    intro i hi hon
    rw [armed_start hphase hi] at hon
    by_cases hij : i = j
    · subst hij
      have hzero := (hinv.unstarted i hi (hinv.fresh i hphase i (le_refl i))).1
      refine ⟨by simp, fun t ht => ?_⟩
      rw [startTime, if_pos rfl] at ht
      cases ht
      rw [flips_start, hzero]
      simp
    · have hji : ¬ j = i := fun h => hij h.symm
      obtain ⟨hle, hexpires⟩ := h i hi (by simpa [hij] using hon)
      refine ⟨by simpa [hij] using hle, fun t ht => ?_⟩
      rw [startTime, if_neg hji] at ht
      rw [flips_start]
      simpa [hij] using hexpires t ht
  | @expire j hj hpending hdue =>
    intro i hi hon
    by_cases hij : i = j
    · -- the handler runs at the very jiffy of the expiry
      subst hij
      obtain ⟨hle, hexpires⟩ := h i hi hon
      refine ⟨by simp, fun t ht => ?_⟩
      have hnow := hexpires t ht
      rw [flips, if_pos rfl, Nat.succ_mul]
      simp only [Function.update_self]
      omega
    · have hji : ¬ j = i := fun h => hij h.symm
      rw [flips, if_neg hji]
      simpa [startTime, hij] using h i hi hon
  | exit hphase =>
    refine h.keep (fun i hi hon => ⟨?_, rfl⟩) (fun i hi hon => (h i hi hon).1) (fun _ => rfl)
      fun _ => rfl
    rw [hphase]
    rfl
  | @delete j hphase =>
    refine h.keep (fun i hi hon => ?_) (fun i hi hon => (h i hi hon).1) (fun _ => rfl)
      fun _ => rfl
    simp only [Phase.armed, decide_eq_true_eq] at hon
    have hij : i ≠ j := by omega
    refine ⟨?_, by simp [hij]⟩
    rw [hphase]
    simp only [Phase.armed, decide_eq_true_eq]
    omega
  | @darken j hphase =>
    refine h.keep (fun i hi hon => ⟨?_, rfl⟩) (fun i hi hon => (h i hi hon).1) (fun _ => rfl)
      fun _ => rfl
    rw [hphase]
    dsimp only at hon
    split at hon
    · simp only [Phase.armed, decide_eq_true_eq] at hon ⊢
      omega
    · cases hon

/-- If the handlers run on time, then at every moment when the timer of a LED is armed and not due,
the timer has expired as often as its period of `(i + 1) * HZ / 10` jiffies has passed since its
start, and the LED is on just when that number is odd (if it was off at the load). -/
theorem leds_on_time
    (hrun : Run (fun s e s' => StepBy (step HZ) s e s' ∧ Timely s e)
      (loaded jiffies valid ret led) τ s)
    (hi : i < NUM_LED) (harmed : s.phase.armed i = true) (hstart : startTime i τ = some t)
    (hdue : s.jiffies < (s.timerFactor i).expires) :
    flips i τ = (s.jiffies - t) / period HZ i ∧
      s.on i = ((loaded jiffies valid ret led).on i ^^
        ((s.jiffies - t) / period HZ i).bodd) := by
  have h : Inv HZ (loaded jiffies valid ret led).on τ s ∧ Punctual HZ τ s := by
    refine hrun.invariant
      (fun τ s => Inv HZ (loaded jiffies valid ret led).on τ s ∧ Punctual HZ τ s)
      ⟨inv_loaded jiffies valid ret led, fun i hi hon => ?_⟩ ?_
    · simp [loaded, Phase.armed] at hon
    · rintro τ s e s' - ⟨hinv, hpunctual⟩ ⟨hstep, htimely⟩
      exact ⟨hinv.step hstep, hpunctual.step hinv hstep htimely⟩
  obtain ⟨hinv, hpunctual⟩ := h
  have hle := hinv.elapsed i hi t hstart
  have hexpires := (hpunctual i hi harmed).2 t hstart
  have hflips : flips i τ = (s.jiffies - t) / period HZ i := by
    refine (Nat.div_eq_of_lt_le ?_ ?_).symm
    · omega
    · omega
  exact ⟨hflips, hflips ▸ hinv.lit i hi (dark_of_armed harmed)⟩

/-- After one jiffy of the period 1, LED 0 is on. -/
theorem leds_on_time_one :
    ∃ (τ : List Event) (s : State),
      Run (StepBy (step 10)) (loaded 0 (fun _ => true) (fun _ => 0) fun _ => 1) τ s ∧
      s.jiffies = 1 ∧ s.on 0 = true := by
  let actions : List Action := [.start, .start, .start, .start, .tick, .expire 0]
  let r := (perform (restrict (step 10) Timely) []
    (loaded 0 (fun _ => true) (fun _ => 0) fun _ => 1) actions).get (by decide)
  have hrun : Run (StepBy (restrict (step 10) Timely))
      (loaded 0 (fun _ => true) (fun _ => 0) fun _ => 1) r.1 r.2 := run_of_get _
  obtain ⟨-, hon⟩ := leds_on_time (i := 0) (t := 0) (hrun.mono stepBy_restrict) (by decide)
    (by decide) (by decide) (by decide)
  exact ⟨r.1, r.2, hrun.mono fun h => (stepBy_restrict h).1, by decide, hon.trans (by decide)⟩

end EE516.LedTimers.Periodic
