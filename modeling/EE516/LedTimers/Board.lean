import Mathlib.Data.List.Range
import Mathlib.Logic.Function.Basic

/-!
# LEDs and kernel timers

What the two drivers of `project5/task2_3` and `project5/task2_4` share: the four LEDs and the
`timer_list` of the kernel. A timer is pending from `add_timer` on until it expires, which detaches
it before its handler is called, or until `del_timer`. The function of a timer is always
`timer_timeout`, and is left out.
-/

set_option autoImplicit false

namespace EE516.LedTimers

universe u

/-- The number of LEDs. -/
def NUM_LED : Nat := 4

/-- `struct timer_list`. -/
structure Timer where
  pending : Bool
  expires : Nat
  data : Nat
  deriving DecidableEq, Repr

namespace Timer

/-- A timer in zeroed memory. -/
def zero : Timer := ⟨false, 0, 0⟩

/-- The list that a timer is in is not looked at. -/
def init_timer (t : Timer) : Timer := { t with pending := false }

/-- The timer is armed. -/
def add_timer (t : Timer) : Timer := { t with pending := true }

/-- Only a pending timer is removed. -/
def del_timer (t : Timer) : Timer := if t.pending then { t with pending := false } else t

/-- The kernel takes an expired timer out of its list. -/
def detach (t : Timer) : Timer := { t with pending := false }

@[simp] theorem pending_del_timer (t : Timer) : t.del_timer.pending = false := by
  unfold del_timer
  split
  · rfl
  · simp_all

@[simp] theorem data_del_timer (t : Timer) : t.del_timer.data = t.data := by
  unfold del_timer
  split <;> rfl

end Timer

/-- One more iteration of a loop that writes the cells of an array. -/
theorem update_prefix {α : Type u} (f g : Nat → α) (n : Nat) :
    Function.update (fun i => if i < n then g i else f i) n (g n) =
      fun i => if i < n + 1 then g i else f i := by
  funext i
  by_cases hin : i = n
  · subst hin
    simp
  · have hiff : i < n + 1 ↔ i < n := by omega
    simp [hin, hiff]

/-- The loop `for(i=0;i<n;i++)` over the LEDs with a `gpio_set_value(LED0_GPIO+i, value)` for those
that a test selects. The value at `i` is that of the line `LED0_GPIO + i`. -/
def setLeds (n : Nat) (select : Nat → Bool) (value : Nat) (led : Nat → Nat) : Nat → Nat :=
  (List.range n).foldl (fun led i => if select i then Function.update led i value else led) led

/-- The loop over the LEDs sets those that are selected. -/
theorem setLeds_eq (n : Nat) (select : Nat → Bool) (value : Nat) (led : Nat → Nat) :
    setLeds n select value led =
      fun i => if i < n then (if select i then value else led i) else led i := by
  induction n with
  | zero => simp [setLeds]
  | succ n ih =>
    rw [setLeds] at ih ⊢
    rw [List.range_succ, List.foldl_append, List.foldl_cons, List.foldl_nil, ih,
      ← update_prefix led (fun i => if select i then value else led i) n]
    cases hs : select n
    · simp
    · simp

end EE516.LedTimers
