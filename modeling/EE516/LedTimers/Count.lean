import EE516.Foundations.Run
import EE516.LedTimers.Board
import Mathlib.Algebra.Group.Nat.Defs

/-!
# The click counter of `project5/task2_4`

The button counts short clicks, a long click clears the count, and one timer shows the count on the
LEDs for 0.8 seconds and turns them off for 0.2 seconds. A handler runs to its end. The kernel calls
`timer_timeout` at some time after `add_timer`; the jiffies are 64 bits wide and do not go back. The
frequency `HZ` is a parameter.
-/

set_option autoImplicit false

namespace EE516.LedTimers.Count

open EE516.Foundations

/-- The data of the timer while the LEDs show the counter. -/
def LIGHTUP : Nat := 0x06

/-- The data of the timer while the LEDs are off. -/
def LIGHTDOWN : Nat := 0x07

/-- The largest `int`. -/
def INT_MAX : Nat := 2147483647

/-- The static variables of the module, the LEDs and the time. -/
structure State where
  timerFactor : Timer
  counter : Nat
  startTime : Nat
  led : Nat → Nat
  /-- the jiffies at the last event -/
  jiffies : Nat

/-- `init_gpios` makes every LED an output with the value 0, whatever `gpio_request` says. -/
def init_gpios (led : Nat → Nat) : Nat → Nat :=
  setLeds NUM_LED (fun _ => true) 0 led

/-- The timer after `start_timer`. -/
def start_timer (HZ jiffies : Nat) (t : Timer) : Timer :=
  { t.init_timer with expires := jiffies + 2 * HZ / 10, data := LIGHTDOWN }.add_timer

/-- The state after the module was loaded. -/
def loaded (HZ jiffies : Nat) (led : Nat → Nat) : State where
  timerFactor := start_timer HZ jiffies .zero
  counter := 0
  startTime := 0
  led := init_gpios led
  jiffies := jiffies

/-- The interrupt handler; `state` is the value of the line `BUTTON_GPIO`. -/
def button_isr (HZ jiffies : Nat) (state : Int) (s : State) : State :=
  if state = 0 then { s with startTime := jiffies }
  else
    -- the difference of two `unsigned long long`
    let duration := (jiffies + 2 ^ 64 - s.startTime) % 2 ^ 64
    if duration ≤ HZ then
      { s with counter := if s.counter + 1 = INT_MAX then 0 else s.counter + 1 }
    else { s with counter := 0 }

/-- The handler of the timer: it shows the counter or turns the LEDs off, and arms the timer again.
-/
def timer_timeout (HZ jiffies ptr : Nat) (s : State) : State :=
  let s :=
    if ptr = LIGHTDOWN then
      { s with
        led := setLeds NUM_LED (fun i => s.counter &&& (1 <<< i) != 0) 1 s.led
        timerFactor := { s.timerFactor with expires := jiffies + 8 * HZ / 10, data := LIGHTUP } }
    else if ptr = LIGHTUP then
      { s with
        led := setLeds NUM_LED (fun _ => true) 0 s.led
        timerFactor := { s.timerFactor with expires := jiffies + 2 * HZ / 10, data := LIGHTDOWN } }
    else s
  { s with timerFactor := s.timerFactor.add_timer }

/-- What happens next: an edge of the button, after which its line has the value `state`, or the
end of the time of the timer. -/
inductive Action where
  | edge (state : Int) (jiffies : Nat)
  | expire (jiffies : Nat)
  deriving DecidableEq, Repr

/-- What a step was, with what the handler was given. -/
inductive Event where
  | edge (state : Int) (jiffies : Nat)
  | timeout (ptr : Nat)
  deriving DecidableEq, Repr

/-- A step at a value of the jiffies that is not below the last one. -/
def step (HZ : Nat) (s : State) : Action → Option (Event × State)
  | .edge state jiffies =>
    if s.jiffies ≤ jiffies ∧ jiffies < 2 ^ 64 then
      some (.edge state jiffies, button_isr HZ jiffies state { s with jiffies := jiffies })
    else none
  | .expire jiffies =>
    if s.jiffies ≤ jiffies ∧ jiffies < 2 ^ 64 ∧ s.timerFactor.pending = true then
      some (.timeout s.timerFactor.data,
        timer_timeout HZ jiffies s.timerFactor.data
          { s with jiffies := jiffies, timerFactor := s.timerFactor.detach })
    else none

/-! ## The clicks of a history -/

/-- The jiffies at the last falling edge. -/
def lastFalling : List Event → Option Nat
  | [] => none
  | .edge state jiffies :: τ => if state = 0 then some jiffies else lastFalling τ
  | .timeout _ :: τ => lastFalling τ

/-- The number of short clicks since the last long click or since the module was loaded. A short
click is a rising edge at most `HZ` jiffies after the last falling edge, a long click is any other
rising edge. -/
def shortClicks (HZ : Nat) : List Event → Nat
  | [] => 0
  | .edge state jiffies :: τ =>
    if state = 0 then shortClicks HZ τ
    else
      match lastFalling τ with
      | some t => if jiffies ≤ t + HZ then shortClicks HZ τ + 1 else 0
      | none => 0
  | .timeout _ :: τ => shortClicks HZ τ

/-- The number of rising edges before the first falling edge, at most `HZ` jiffies after the value 0
that `startTime` begins with, since the last rising edge that was too late for that or, after a
falling edge, a long click. -/
def earlyEdges (HZ : Nat) : List Event → Nat
  | [] => 0
  | .edge state jiffies :: τ =>
    if state = 0 then earlyEdges HZ τ
    else
      match lastFalling τ with
      | some t => if jiffies ≤ t + HZ then earlyEdges HZ τ else 0
      | none => if jiffies ≤ HZ then earlyEdges HZ τ + 1 else 0
  | .timeout _ :: τ => earlyEdges HZ τ

end EE516.LedTimers.Count
