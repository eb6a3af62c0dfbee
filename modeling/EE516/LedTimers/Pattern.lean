import Mathlib.Data.Nat.Bitwise
import EE516.LedTimers.Count

/-!
# The pattern on the LEDs

After the timer has run out in the phase `LIGHTDOWN`, the LEDs show the four low bits of `counter`.
The counter is not the number of short clicks: it goes back to 0 at `INT_MAX`, which is no multiple
of 16, and before the first falling edge it takes `startTime`, which is 0, for the time of one. The
pattern is the right one exactly when the two deviations cancel modulo 16.
-/

set_option autoImplicit false

namespace EE516.LedTimers.Count

open EE516.Foundations

variable {HZ jiffies t₀ ptr i : Nat} {s s' : State} {e : Event} {a : Action} {τ : List Event}
  {led : Nat → Nat} {state : Int}

/-! ## What a handler leaves alone -/

@[simp] theorem timerFactor_button_isr :
    (button_isr HZ jiffies state s).timerFactor = s.timerFactor := by
  simp only [button_isr]
  split
  · rfl
  · split <;> rfl

@[simp] theorem jiffies_button_isr : (button_isr HZ jiffies state s).jiffies = s.jiffies := by
  simp only [button_isr]
  split
  · rfl
  · split <;> rfl

@[simp] theorem jiffies_timer_timeout :
    (timer_timeout HZ jiffies ptr s).jiffies = s.jiffies := by
  simp only [timer_timeout]
  split
  · rfl
  · split <;> rfl

/-! ## Bits -/

/-- The mask of an LED tests a bit of the counter. -/
theorem and_shiftLeft_ne_zero (c i : Nat) : (c &&& (1 <<< i) != 0) = c.testBit i := by
  rw [Nat.one_shiftLeft, Nat.and_two_pow]
  cases c.testBit i <;> simp

/-- Two numbers have the same low bits when they agree modulo a power of 2. -/
theorem testBit_eq_iff (w a b : Nat) :
    (∀ i < w, a.testBit i = b.testBit i) ↔ a % 2 ^ w = b % 2 ^ w := by
  constructor
  · intro h
    refine Nat.eq_of_testBit_eq fun i => ?_
    rw [Nat.testBit_mod_two_pow, Nat.testBit_mod_two_pow]
    by_cases hi : i < w
    · rw [h i hi]
    · simp [hi]
  · intro h i hi
    have hbit := congrArg (fun n => n.testBit i) h
    simpa [Nat.testBit_mod_two_pow, hi] using hbit

/-! ## The counter -/

/-- Before the first falling edge there was no short click. -/
theorem shortClicks_eq_zero (h : lastFalling τ = none) : shortClicks HZ τ = 0 := by
  induction τ with
  | nil => rfl
  | cons e τ ih =>
    cases e with
    | edge state jiffies =>
      simp only [lastFalling] at h
      split at h
      case isTrue => cases h
      case isFalse hstate => simp [shortClicks, hstate, h]
    | timeout ptr => exact ih h

/-- The counter and `startTime` are read from the history, and the LEDs are off in the phase
`LIGHTDOWN`. -/
structure Inv (HZ : Nat) (τ : List Event) (s : State) : Prop where
  counter : s.counter = (shortClicks HZ τ + earlyEdges HZ τ) % INT_MAX
  startTime : s.startTime = (lastFalling τ).getD 0
  le : s.startTime ≤ s.jiffies
  phase : s.timerFactor.data = LIGHTUP ∨
    s.timerFactor.data = LIGHTDOWN ∧ ∀ i < NUM_LED, s.led i = 0

theorem inv_loaded : Inv HZ [] (loaded HZ t₀ led) where
  counter := rfl
  startTime := rfl
  le := Nat.zero_le t₀
  phase := .inr ⟨rfl, fun i hi => by simp [loaded, init_gpios, setLeds_eq, hi]⟩

/-- One more click, modulo `INT_MAX`. -/
theorem succ_mod (n : Nat) : (if n % INT_MAX + 1 = INT_MAX then 0 else n % INT_MAX + 1) =
    (n + 1) % INT_MAX := by
  have hpos : 0 < INT_MAX := by decide
  have hlt := Nat.mod_lt n hpos
  by_cases htop : n % INT_MAX + 1 = INT_MAX
  · rw [if_pos htop, Nat.add_mod, Nat.mod_eq_of_lt (show 1 < INT_MAX by decide), htop, Nat.mod_self]
  · rw [if_neg htop, Nat.add_mod, Nat.mod_eq_of_lt (show 1 < INT_MAX by decide),
      Nat.mod_eq_of_lt (show n % INT_MAX + 1 < INT_MAX by omega)]

/-- A rising edge; the wrap-around of the subtraction does not show. -/
theorem button_isr_rising (hstate : state ≠ 0) (hle : s.startTime ≤ jiffies)
    (hlt : jiffies < 2 ^ 64) :
    button_isr HZ jiffies state s = { s with
      counter :=
        if jiffies ≤ s.startTime + HZ then
          if s.counter + 1 = INT_MAX then 0 else s.counter + 1
        else 0 } := by
  have hd : (jiffies + 2 ^ 64 - s.startTime) % 2 ^ 64 ≤ HZ ↔ jiffies ≤ s.startTime + HZ := by
    omega
  simp only [button_isr, if_neg hstate, hd]
  by_cases hshort : jiffies ≤ s.startTime + HZ
  · simp only [if_pos hshort]
  · simp only [if_neg hshort]

/-- A falling edge notes its time. -/
theorem Inv.falling (h : Inv HZ τ s) :
    Inv HZ (.edge 0 jiffies :: τ) { s with jiffies := jiffies, startTime := jiffies } where
  counter := h.counter
  startTime := rfl
  le := Nat.le_refl jiffies
  phase := h.phase

/-- A rising edge counts, or does not, and keeps the invariant. -/
theorem Inv.rising (h : Inv HZ τ s) (hstate : state ≠ 0) (hle : s.jiffies ≤ jiffies)
    (hlt : jiffies < 2 ^ 64) :
    Inv HZ (.edge state jiffies :: τ)
      (button_isr HZ jiffies state { s with jiffies := jiffies }) := by
  have hstart : s.startTime ≤ jiffies := Nat.le_trans h.le hle
  rw [button_isr_rising (s := { s with jiffies := jiffies }) hstate hstart hlt]
  refine ⟨?_, ?_, hstart, h.phase⟩
  · simp only [h.counter, succ_mod, h.startTime, shortClicks, earlyEdges, if_neg hstate]
    cases hlast : lastFalling τ with
    | none =>
      -- the code takes the jiffies 0 for the last falling edge
      simp only [Option.getD_none, shortClicks_eq_zero hlast, Nat.zero_add]
      by_cases hearly : jiffies ≤ HZ
      · simp only [if_pos hearly]
      · simp only [if_neg hearly, Nat.zero_mod]
    | some t =>
      simp only [Option.getD_some]
      by_cases hshort : jiffies ≤ t + HZ
      · simp only [if_pos hshort]
        congr 1
        omega
      · simp only [if_neg hshort, Nat.zero_add, Nat.zero_mod]
  · simp only [h.startTime, lastFalling, if_neg hstate]

/-! ## The phases -/

/-- The LEDs after the timer has run out in the phase `LIGHTDOWN`. -/
theorem led_lightdown (hoff : ∀ i < NUM_LED, s.led i = 0) (hi : i < NUM_LED) :
    (timer_timeout HZ jiffies LIGHTDOWN s).led i = if s.counter.testBit i then 1 else 0 := by
  simp only [timer_timeout, if_true, setLeds_eq, if_pos hi, and_shiftLeft_ne_zero, hoff i hi]

/-- After the handler with `LIGHTUP` every LED is at 0. -/
theorem led_lightup (hi : i < NUM_LED) : (timer_timeout HZ jiffies LIGHTUP s).led i = 0 := by
  simp [timer_timeout, LIGHTUP, LIGHTDOWN, setLeds_eq, hi]

/-- A handler leaves the counter alone. -/
theorem Inv.timeout (h : Inv HZ τ s) (hle : s.jiffies ≤ jiffies) :
    Inv HZ (.timeout s.timerFactor.data :: τ) (timer_timeout HZ jiffies s.timerFactor.data
      { s with jiffies := jiffies, timerFactor := s.timerFactor.detach }) := by
  have hstart : s.startTime ≤ jiffies := Nat.le_trans h.le hle
  rcases h.phase with hdata | ⟨hdata, -⟩
  · rw [hdata]
    exact ⟨h.counter, h.startTime, hstart, .inr ⟨rfl, fun i hi => led_lightup hi⟩⟩
  · rw [hdata]
    exact ⟨h.counter, h.startTime, hstart, .inl rfl⟩

/-- Every step keeps the invariant. -/
theorem Inv.step (h : Inv HZ τ s) (hs : step HZ s a = some (e, s')) : Inv HZ (e :: τ) s' := by
  cases a with
  | edge state jiffies =>
    simp only [Count.step] at hs
    split at hs
    case isTrue htime =>
      cases hs
      by_cases hstate : state = 0
      · subst hstate
        exact h.falling
      · exact h.rising hstate htime.1 htime.2
    case isFalse => cases hs
  | expire jiffies =>
    simp only [Count.step] at hs
    split at hs
    case isTrue htime =>
      cases hs
      exact h.timeout htime.1
    case isFalse => cases hs

/-- The invariant holds in every run from the loading of the module on. -/
theorem inv_run (hrun : Run (StepBy (step HZ)) (loaded HZ t₀ led) τ s) : Inv HZ τ s := by
  refine hrun.invariant (fun τ s => Inv HZ τ s) inv_loaded ?_
  intro τ s e s' _ hinv ⟨a, ha⟩
  exact hinv.step ha

/-! ## Runs -/

/-- The state before a run of `timer_timeout`. -/
theorem timeout_of_run (hrun : Run (StepBy (step HZ)) (loaded HZ t₀ led) (.timeout ptr :: τ) s) :
    ∃ s₁ jiffies, Inv HZ τ s₁ ∧ s₁.timerFactor.data = ptr ∧ s.led =
      (timer_timeout HZ jiffies ptr { s₁ with timerFactor := s₁.timerFactor.detach }).led := by
  cases hrun with
  | @step _ s₁ _ _ hrun he =>
    obtain ⟨a, ha⟩ := he
    cases a with
    | edge state jiffies =>
      simp only [step] at ha
      split at ha <;> cases ha
    | expire jiffies =>
      simp only [step] at ha
      split at ha
      case isTrue =>
        cases ha
        refine ⟨s₁, jiffies, inv_run hrun, rfl, ?_⟩
        unfold timer_timeout
        split
        · rfl
        · split <;> rfl
      case isFalse => cases ha

/-- The two deviations of the counter, modulo 16: `INT_MAX` is 15 there. -/
theorem counter_mod_iff (n m : Nat) :
    (n + m) % INT_MAX % 2 ^ 4 = n % 16 % 2 ^ 4 ↔ (m + (n + m) / INT_MAX) % 16 = 0 := by
  have hdiv := Nat.div_add_mod (n + m) INT_MAX
  have hmax : INT_MAX = 2147483647 := rfl
  generalize (n + m) / INT_MAX = q at hdiv ⊢
  generalize (n + m) % INT_MAX = r at hdiv ⊢
  rw [hmax] at hdiv
  omega

/-- Two counters show the same pattern if their last four bits are the same. -/
theorem led_iff (c n : Nat) :
    (∀ i < NUM_LED, (if c.testBit i then 1 else 0) = if n.testBit i then 1 else 0) ↔
      c % 2 ^ 4 = n % 2 ^ 4 := by
  rw [← testBit_eq_iff]
  refine forall₂_congr fun i _ => ?_
  cases c.testBit i <;> cases n.testBit i <;> simp

/-- The pattern shown is that of the short clicks exactly under the condition. -/
theorem lightdown_iff
    (hrun : Run (StepBy (step HZ)) (loaded HZ t₀ led) (.timeout LIGHTDOWN :: τ) s) :
    (∀ i < NUM_LED, s.led i = if (shortClicks HZ τ % 16).testBit i then 1 else 0) ↔
      (earlyEdges HZ τ + (shortClicks HZ τ + earlyEdges HZ τ) / INT_MAX) % 16 = 0 := by
  obtain ⟨s₁, jiffies, hinv, hdata, hled⟩ := timeout_of_run hrun
  have hoff : ∀ i < NUM_LED, s₁.led i = 0 := by
    rcases hinv.phase with hup | ⟨-, hoff⟩
    · rw [hdata] at hup
      cases hup
    · exact hoff
  have hshown : ∀ i < NUM_LED, s.led i = if s₁.counter.testBit i then 1 else 0 := fun i hi =>
    (congrFun hled i).trans (led_lightdown hoff hi)
  rw [← counter_mod_iff, ← hinv.counter, ← led_iff]
  exact forall₂_congr fun i hi => by rw [hshown i hi]

/-- Whatever the button and the timer do: after the phase `LIGHTUP` the LEDs are off, and after the
phase `LIGHTDOWN` they show the number of short clicks modulo 16 exactly when the early edges and
the returns of the counter to 0 come to a multiple of 16. -/
theorem pattern_right_iff
    (hrun : Run (StepBy (step HZ)) (loaded HZ t₀ led) (.timeout ptr :: τ) s) :
    (ptr = LIGHTUP ∨ ptr = LIGHTDOWN) ∧
    (ptr = LIGHTUP → ∀ i < NUM_LED, s.led i = 0) ∧
    (ptr = LIGHTDOWN →
      ((∀ i < NUM_LED, s.led i = if (shortClicks HZ τ % 16).testBit i then 1 else 0) ↔
        (earlyEdges HZ τ + (shortClicks HZ τ + earlyEdges HZ τ) / INT_MAX) % 16 = 0)) := by
  obtain ⟨s₁, jiffies, hinv, hdata, hled⟩ := timeout_of_run hrun
  refine ⟨?_, ?_, ?_⟩
  · rcases hinv.phase with hup | ⟨hdown, -⟩
    · exact .inl (hdata.symm.trans hup)
    · exact .inr (hdata.symm.trans hdown)
  · rintro rfl i hi
    exact (congrFun hled i).trans (led_lightup hi)
  · rintro rfl
    exact lightdown_iff hrun

/-- The module is loaded, there are two short clicks, and the timer runs out. -/
def twoClicks : List Action :=
  [.edge 0 1001, .edge 1 1005, .edge 0 1010, .edge 1 1014, .expire 1020]

theorem pattern_right_iff_two : ∃ (τ : List Event) (s : State), s.led 0 = 0 ∧ s.led 1 = 1 ∧
    ((∀ i < NUM_LED, s.led i = if (shortClicks 100 τ % 16).testBit i then 1 else 0) ↔
      (earlyEdges 100 τ + (shortClicks 100 τ + earlyEdges 100 τ) / INT_MAX) % 16 = 0) := by
  let r := (perform (step 100) [] (loaded 100 1000 fun _ => 1) twoClicks).get (by decide +kernel)
  have hlast : r.1 = .timeout LIGHTDOWN :: r.1.tail := by decide +kernel
  have hrun : Run (StepBy (step 100)) (loaded 100 1000 fun _ => 1) r.1 r.2 := run_of_get _
  rw [hlast] at hrun
  have hzero : r.2.led 0 = 0 := by decide +kernel
  have hone : r.2.led 1 = 1 := by decide +kernel
  exact ⟨r.1.tail, r.2, hzero, hone, (pattern_right_iff hrun).2.2 rfl⟩

/-! ## A click in every second -/

/-- One second with a short click: the two edges, the LEDs light up, and they go out again. -/
def second (T : Nat) : List Action :=
  [.edge 0 T, .edge 1 (T + 1), .expire (T + 20), .expire (T + 100)]

theorem second_run {s₀ : State} {T : Nat} (hrun : Run (StepBy (step 100)) s₀ τ s)
    (ht : s.timerFactor = ⟨true, T + 20, LIGHTDOWN⟩) (hle : s.jiffies ≤ T)
    (hlt : T + 100 < 2 ^ 64) :
    ∃ τ' s', Run (StepBy (step 100)) s₀ τ' s' ∧
      s'.timerFactor = ⟨true, T + 100 + 20, LIGHTDOWN⟩ ∧ s'.jiffies = T + 100 ∧
      shortClicks 100 τ' = shortClicks 100 τ + 1 ∧ earlyEdges 100 τ' = earlyEdges 100 τ := by
  obtain ⟨s₁, hs₁, ht₁, hj₁⟩ : ∃ s₁, step 100 s (.edge 0 T) = some (.edge 0 T, s₁) ∧
      s₁.timerFactor = ⟨true, T + 20, LIGHTDOWN⟩ ∧ s₁.jiffies = T :=
    ⟨_, if_pos ⟨hle, by omega⟩, by simpa using ht, by simp⟩
  obtain ⟨s₂, hs₂, ht₂, hj₂⟩ : ∃ s₂, step 100 s₁ (.edge 1 (T + 1)) =
      some (.edge 1 (T + 1), s₂) ∧ s₂.timerFactor = ⟨true, T + 20, LIGHTDOWN⟩ ∧
      s₂.jiffies = T + 1 :=
    ⟨_, if_pos ⟨by omega, by omega⟩, by simpa using ht₁, by simp⟩
  obtain ⟨s₃, hs₃, ht₃, hj₃⟩ : ∃ s₃, step 100 s₂ (.expire (T + 20)) =
      some (.timeout LIGHTDOWN, s₃) ∧ s₃.timerFactor = ⟨true, T + 100, LIGHTUP⟩ ∧
      s₃.jiffies = T + 20 := by
    refine ⟨_, (if_pos ⟨by omega, by omega, by rw [ht₂]⟩).trans (by rw [ht₂]), rfl, by simp⟩
  obtain ⟨s₄, hs₄, ht₄, hj₄⟩ : ∃ s₄, step 100 s₃ (.expire (T + 100)) =
      some (.timeout LIGHTUP, s₄) ∧ s₄.timerFactor = ⟨true, T + 100 + 20, LIGHTDOWN⟩ ∧
      s₄.jiffies = T + 100 := by
    refine ⟨_, (if_pos ⟨by omega, by omega, by rw [ht₃]⟩).trans (by rw [ht₃]), rfl, by simp⟩
  -- the rising edge comes one tick after the falling one, so that the click is short
  refine ⟨_, s₄, .step (.step (.step (.step hrun ⟨_, hs₁⟩) ⟨_, hs₂⟩) ⟨_, hs₃⟩) ⟨_, hs₄⟩, ht₄, hj₄,
    ?_, ?_⟩
  · simp [shortClicks, lastFalling]
  · simp [earlyEdges, lastFalling]

/-- Short clicks can follow one another for as long as the jiffies last. -/
theorem seconds_run (led : Nat → Nat) (n : Nat) (hn : 1000 + 100 * n < 2 ^ 64) :
    ∃ τ s, Run (StepBy (step 100)) (loaded 100 1000 led) τ s ∧
      s.timerFactor = ⟨true, 1000 + 100 * n + 20, LIGHTDOWN⟩ ∧ s.jiffies = 1000 + 100 * n ∧
      shortClicks 100 τ = n ∧ earlyEdges 100 τ = 0 := by
  induction n with
  | zero => exact ⟨[], _, .start, rfl, rfl, rfl, rfl⟩
  | succ n ih =>
    obtain ⟨τ, s, hrun, ht, hj, hn, he⟩ := ih (by omega)
    obtain ⟨τ', s', hrun', ht', hj', hn', he'⟩ :=
      second_run hrun ht (Nat.le_of_eq hj) (by omega)
    exact ⟨τ', s', hrun', ht', hj', by omega, by omega⟩

/-- After `INT_MAX` short clicks, one in every second, the LEDs stay dark. -/
theorem clicks_forgotten : ¬ ∀ (HZ t₀ : Nat) (led : Nat → Nat) (ptr : Nat) (τ : List Event)
    (s : State), Run (StepBy (step HZ)) (loaded HZ t₀ led) (.timeout ptr :: τ) s →
      (ptr = LIGHTUP → ∀ i < NUM_LED, s.led i = 0) ∧
      (ptr = LIGHTDOWN →
        ∀ i < NUM_LED, s.led i = if (shortClicks HZ τ % 16).testBit i then 1 else 0) := by
  intro hall
  obtain ⟨τ, s, hrun, ht, hj, hn, he⟩ :=
    seconds_run (fun _ => 0) INT_MAX (by decide)
  obtain ⟨s', hs'⟩ : ∃ s', step 100 s (.expire (1000 + 100 * INT_MAX + 20)) =
      some (.timeout LIGHTDOWN, s') :=
    ⟨_, (if_pos ⟨by omega, by decide, by rw [ht]⟩).trans (by rw [ht])⟩
  have hrun' := hrun.step ⟨_, hs'⟩
  -- the counter has returned to 0 once, and 1 is no multiple of 16
  have hright := (lightdown_iff hrun').1 ((hall _ _ _ _ _ _ hrun').2 rfl)
  rw [hn, he] at hright
  exact absurd hright (by decide)

end EE516.LedTimers.Count
