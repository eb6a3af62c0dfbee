import EE516.Foundations.Run
import EE516.LedTimers.Board

/-!
# The four timers of `project5/task2_3`

Each LED has a timer that its handler arms again, and the button starts and stops them. The
interrupt of the button can come between any two steps of the handler; it runs to its end before
the handler goes on, and handlers run one at a time, as on the one processor of the board. When a
timer expires is up to the kernel. The frequency `HZ` of the jiffies is a parameter.
-/

set_option autoImplicit false

namespace EE516.LedTimers.Blink

open EE516.Foundations

/-- The next step of `timer_timeout`, after the kernel has detached the timer. -/
inductive HandlerPoint where
  /-- the test of `ptr`, and `cur = gpio_get_value(LED0_GPIO+ptr)` -/
  | read
  /-- `gpio_set_value(target, ..)` -/
  | flip (cur : Nat)
  /-- `timerFactor[ptr].expires = ..` -/
  | setExpires
  /-- `add_timer(&timerFactor[ptr])` -/
  | add
  deriving DecidableEq, Repr

/-- A handler that runs. -/
structure Handler where
  ptr : Nat
  point : HandlerPoint
  deriving DecidableEq, Repr

/-- What the kernel forbids. -/
inductive Misuse where
  /-- `init_timer` of a pending timer: the list of the kernel is torn -/
  | initPending (i : Nat)
  /-- `add_timer` of a pending timer: `BUG_ON(timer_pending(timer))` -/
  | addPending (i : Nat)
  deriving DecidableEq, Repr

/-- The static variables of the module, the LEDs, the handler that is running if one is, and the
calls that break a rule of the kernel. -/
structure State where
  timerActivated : Nat
  timerFactor : Nat → Timer
  led : Nat → Nat
  handler : Option Handler
  misuse : List Misuse

/-- `init_gpios`, with the results of `gpio_request`: a LED whose line is refused stays as it
is. -/
def init_gpios (ret : Nat → Int) (led : Nat → Nat) : Nat → Nat :=
  setLeds NUM_LED (fun i => decide (0 ≤ ret i)) 0 led

/-- The state after the module was loaded. -/
def loaded (ret : Nat → Int) (led : Nat → Nat) : State where
  timerActivated := 0
  timerFactor _ := .zero
  led := init_gpios ret led
  handler := none
  misuse := []

/-- An assignment to a timer. -/
def State.setTimer (s : State) (i : Nat) (t : Timer) : State :=
  { s with timerFactor := Function.update s.timerFactor i t }

/-- `init_timer` of a timer, which must not be pending. -/
def State.init_timer (s : State) (i : Nat) : State :=
  { s.setTimer i (s.timerFactor i).init_timer with
    misuse := if (s.timerFactor i).pending then .initPending i :: s.misuse else s.misuse }

/-- `add_timer` of a timer, which must not be pending. -/
def State.add_timer (s : State) (i : Nat) : State :=
  if (s.timerFactor i).pending then { s with misuse := .addPending i :: s.misuse }
  else s.setTimer i (s.timerFactor i).add_timer

/-- The body of the loop of `start_timer`. -/
def startOne (HZ jiffies : Nat) (s : State) (i : Nat) : State :=
  let s := s.init_timer i
  let s := s.setTimer i { s.timerFactor i with expires := jiffies + (i + 1) * HZ / 10, data := i }
  s.add_timer i

/-- The loop over the timers that arms each of them. -/
def start_timer (HZ jiffies : Nat) (s : State) : State :=
  (List.range NUM_LED).foldl (startOne HZ jiffies) s

/-- The body of the loop of `stop_timer`. -/
def stopOne (s : State) (i : Nat) : State :=
  { s.setTimer i (s.timerFactor i).del_timer with led := Function.update s.led i 0 }

/-- The loop over the timers that deletes each of them. -/
def stop_timer (s : State) : State :=
  (List.range NUM_LED).foldl stopOne s

/-- The interrupt handler; `state` is the value of the line `BUTTON_GPIO`. -/
def button_isr (HZ jiffies : Nat) (state : Int) (s : State) : State :=
  if state = 0 then
    if s.timerActivated = 0 then { start_timer HZ jiffies s with timerActivated := 1 }
    else { stop_timer s with timerActivated := 0 }
  else s

/-- A step of `timer_timeout(h.ptr)`. -/
def timer_timeout (HZ jiffies : Nat) (s : State) (h : Handler) : State :=
  match h.point with
  | .read =>
    if h.ptr < 4 then { s with handler := some ⟨h.ptr, .flip (s.led h.ptr)⟩ }
    else { s with handler := none }
  | .flip cur =>
    { s with
      led := Function.update s.led h.ptr (if cur = 0 then 1 else 0)
      handler := some ⟨h.ptr, .setExpires⟩ }
  | .setExpires =>
    { s.setTimer h.ptr { s.timerFactor h.ptr with
        expires := jiffies + (h.ptr + 1) * HZ / 10 } with handler := some ⟨h.ptr, .add⟩ }
  | .add => { s.add_timer h.ptr with handler := none }

/-- What happens next, with the jiffies at that moment. -/
inductive Action where
  | expire (i : Nat)
  | handle (jiffies : Nat)
  | button (state : Int) (jiffies : Nat)
  deriving DecidableEq, Repr

/-- What a step was. -/
inductive Event where
  | expire (i : Nat)
  | handle
  | button (state : Int)
  deriving DecidableEq, Repr

/-- One step: a timer expires while no handler runs, the handler goes on, or the button interrupts.
-/
def step (HZ : Nat) (s : State) : Action → Option (Event × State)
  | .expire i =>
    if i < NUM_LED ∧ (s.timerFactor i).pending = true ∧ s.handler = none then
      some (.expire i, { s.setTimer i (s.timerFactor i).detach with
        handler := some ⟨(s.timerFactor i).data, .read⟩ })
    else none
  | .handle jiffies => s.handler.map fun h => (.handle, timer_timeout HZ jiffies s h)
  | .button state jiffies => some (.button state, button_isr HZ jiffies state s)

end EE516.LedTimers.Blink
