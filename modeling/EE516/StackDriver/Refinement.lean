import EE516.Foundations.Lifo
import EE516.StackDriver.Driver

/-!
# The stack driver keeps a stack

The abstract driver is a stack of 256 bytes. The array up to `stackpointer` holds its elements
(`Refines`), and each call of the driver does and returns what the abstract one does.
-/

set_option autoImplicit false

namespace EE516.StackDriver

open EE516.Foundations

/-- The stack that the driver is to keep. -/
abbrev Bytes := Lifo Int8 256

/-- What the abstract driver answers. -/
inductive Answer where
  | pushed (size : Nat)
  | full
  | yielded (x : Int8)
  | empty
  | cleaned
  | ignored
  deriving DecidableEq

/-- A call serves the abstract stack. -/
def serve (l : Bytes) : Call → Answer × Bytes
  | .read =>
    match l.pop with
    | some (x, l') => (.yielded x, l')
    | none => (.empty, l)
  | .write buffer0 =>
    match l.push buffer0 with
    | some l' => (.pushed l'.items.length, l')
    | none => (.full, l)
  | .ioctl cmd => if cmd = 0 then (.cleaned, Lifo.empty) else (.ignored, l)

/-- The step of the abstract driver; the event is the call with its answer. -/
def serveStep (l : Bytes) (c : Call) : Option ((Call × Answer) × Bytes) :=
  some ((c, (serve l c).1), (serve l c).2)

/-- What the operation under the call returns. -/
def Answer.inner : Answer → Option Int
  | .pushed size => some size
  | .yielded x => some x.toInt
  | .full | .empty => some FAILED
  | .cleaned | .ignored => none

/-- What the call returns. -/
def Answer.ret : Answer → Int
  | .pushed size => size
  | .full => FAILED
  | .yielded x => x.toInt
  | .empty => -1
  | .cleaned | .ignored => 0

/-- The driver's call goes as the abstract one, and its indices are in 0..255. -/
structure Matches (e : Event) (a : Call × Answer) : Prop where
  call : e.call = a.1
  inner : e.outcome.bind Outcome.r = a.2.inner
  ret : e.ret = a.2.ret
  index : ∀ o i, e.outcome = some o → o.index = some i → 0 ≤ i ∧ i ≤ 255

/-- The array from 0 to `stackpointer` holds the elements of the abstract stack, the top last. -/
structure Refines (s : State) (l : Bytes) : Prop where
  entries : s.stack.length = 257
  size : size s = l.items.length
  items : s.stack.take l.items.length = (l.items.map Int8.toInt).reverse

variable {s s' : State} {l l' : Bytes} {x : Int8}

theorem refines_start : Refines start Lifo.empty where
  entries := List.length_replicate
  size := rfl
  items := rfl

/-- The driver is empty and full when the abstract stack is. -/
theorem Refines.empty_iff (h : Refines s l) : empty s = true ↔ l.items = [] := by
  have hsize := h.size
  rw [empty, decide_eq_true_eq, ← List.length_eq_zero_iff]
  rw [StackDriver.size] at hsize
  omega

/-- The driver takes the stack for full exactly at 256 bytes. -/
theorem Refines.full_iff (h : Refines s l) : full s = true ↔ l.items.length = 256 := by
  have hsize := h.size
  rw [full, decide_eq_true_eq]
  rw [StackDriver.size] at hsize
  omega

theorem toInt_ne_failed (x : Int8) : x.toInt ≠ FAILED := by
  have hlt := Int8.toInt_lt x
  rw [FAILED]
  omega

/-! ## The operations -/

/-- A push of the driver is one of the stack. -/
theorem Refines.push (h : Refines s l) (hl' : l'.items = x :: l.items) :
    ∃ s', StackDriver.push s x.toInt =
        some (⟨some l'.items.length, some (s.stackpointer + 1)⟩, s') ∧ Refines s' l' ∧
      0 ≤ s.stackpointer + 1 ∧ s.stackpointer + 1 ≤ 255 := by
  have hlength := congrArg List.length hl'
  have hbounded := l'.bounded
  have hsize := h.size
  have hentries := h.entries
  rw [List.length_cons] at hlength
  have hfull : ¬ full s = true := by
    intro hfull
    have hmax := h.full_iff.1 hfull
    omega
  rw [StackDriver.size] at hsize
  have hset : setEntry s.stack (s.stackpointer + 1) x.toInt =
      some (s.stack.set l.items.length x.toInt) := by
    rw [setEntry, if_pos (by omega), hsize, Int.toNat_natCast]
  refine ⟨⟨s.stack.set l.items.length x.toInt, s.stackpointer + 1⟩, ?_, ?_, by omega, by omega⟩
  · rw [StackDriver.push, modifyStack, if_pos rfl, if_neg hfull]
    simp only [hset, Option.bind_eq_bind, Option.bind_some, StackDriver.size, Option.some.injEq,
      Prod.mk.injEq, Outcome.mk.injEq, and_true]
    omega
  · constructor
    · rw [List.length_set]
      exact hentries
    · show s.stackpointer + 1 + 1 = l'.items.length
      omega
    · rw [hl', List.length_cons, List.map_cons, List.reverse_cons, ← h.items,
        List.take_add_one, List.take_set_of_le (Nat.le_refl _),
        List.getElem?_set_self (by omega)]
      rfl

/-- A push on a full stack fails and changes nothing. -/
theorem Refines.push_full (h : Refines s l) (hl : l.items.length = 256) :
    StackDriver.push s x.toInt = some (⟨some FAILED, none⟩, s) := by
  rw [StackDriver.push, modifyStack, if_pos rfl, if_pos (h.full_iff.2 hl)]

/-- The entry at `stackpointer` is the top, the entries before it are the rest. -/
theorem Refines.top (h : Refines s l) (hl : l.items = x :: l'.items) :
    s.stackpointer = l'.items.length ∧ getEntry s.stack s.stackpointer = some x.toInt ∧
      s.stack.take l'.items.length = (l'.items.map Int8.toInt).reverse := by
  have hlength := congrArg List.length hl
  have hbounded := l.bounded
  have hsize := h.size
  have hentries := h.entries
  have hitems := h.items
  rw [List.length_cons] at hlength
  rw [StackDriver.size] at hsize
  have hpointer : s.stackpointer = l'.items.length := by omega
  rw [hl, List.length_cons, List.map_cons, List.reverse_cons, List.take_add_one,
    List.getElem?_eq_getElem (by omega)] at hitems
  have htop := List.singleton_inj.1 (List.append_inj_right' hitems rfl)
  refine ⟨hpointer, ?_, List.append_inj_left' hitems rfl⟩
  rw [getEntry, if_pos (by omega), hpointer, Int.toNat_natCast, List.getElem?_eq_getElem (by omega),
    htop]

theorem Refines.not_empty (h : Refines s l) (hl : l.items = x :: l'.items) : ¬ empty s = true := by
  intro hempty
  rw [h.empty_iff, hl] at hempty
  cases hempty

/-- A pop of the driver is one of the stack. -/
theorem Refines.pop (h : Refines s l) (hl : l.items = x :: l'.items) :
    ∃ s', StackDriver.pop s = some (⟨some x.toInt, some s.stackpointer⟩, s') ∧ Refines s' l' ∧
      0 ≤ s.stackpointer ∧ s.stackpointer ≤ 255 := by
  obtain ⟨hpointer, htop, hrest⟩ := h.top hl
  have hlength := congrArg List.length hl
  have hbounded := l.bounded
  rw [List.length_cons] at hlength
  refine ⟨⟨s.stack, s.stackpointer - 1⟩, ?_, ⟨h.entries, ?_, hrest⟩, by omega, by omega⟩
  · rw [StackDriver.pop, modifyStack, if_neg (by decide), if_pos rfl, if_neg (h.not_empty hl), htop]
    rfl
  · show s.stackpointer - 1 + 1 = l'.items.length
    omega

/-- A pop of an empty stack fails and changes nothing. -/
theorem Refines.pop_empty (h : Refines s l) (hl : l.items = []) :
    StackDriver.pop s = some (⟨some FAILED, none⟩, s) := by
  rw [StackDriver.pop, modifyStack, if_neg (by decide), if_pos rfl, if_pos (h.empty_iff.2 hl)]

/-- The reset of the pointer empties the stack. -/
theorem Refines.clean (h : Refines s l) :
    Refines { s with stackpointer := -1 } (Lifo.empty : Bytes) where
  entries := h.entries
  size := rfl
  items := rfl

/-! ## Calls -/

/-- `hw1_read` serves the stack. -/
theorem Refines.read (h : Refines s l) :
    ∃ e s', hw1_read s = some (e, s') ∧ Matches e (.read, (serve l .read).1) ∧
      Refines s' (serve l .read).2 := by
  rw [serve]
  cases hpop : l.pop with
  | none =>
    refine ⟨⟨.read, some ⟨some FAILED, none⟩, -1⟩, s, ?_, ⟨rfl, rfl, rfl, ?_⟩, h⟩
    · rw [hw1_read, h.pop_empty (Lifo.pop_eq_none.1 hpop)]
      rfl
    · rintro o i ho hi
      cases ho
      cases hi
  | some r =>
    obtain ⟨x, l'⟩ := r
    obtain ⟨s', hs', h', hmin, hmax⟩ := h.pop (Lifo.pop_eq_some.1 hpop)
    refine ⟨⟨.read, some ⟨some x.toInt, some s.stackpointer⟩, x.toInt⟩, s', ?_,
      ⟨rfl, rfl, rfl, ?_⟩, h'⟩
    · simp only [hw1_read, hs', Option.bind_eq_bind, Option.bind_some, if_neg (toInt_ne_failed x)]
    · rintro o i ho hi
      cases ho
      cases hi
      exact ⟨hmin, hmax⟩

/-- `hw1_write` serves the stack. -/
theorem Refines.write (h : Refines s l) (buffer0 : Int8) :
    ∃ e s', hw1_write s buffer0 = some (e, s') ∧
      Matches e (.write buffer0, (serve l (.write buffer0)).1) ∧
      Refines s' (serve l (.write buffer0)).2 := by
  rw [serve]
  cases hpush : l.push buffer0 with
  | none =>
    refine ⟨⟨.write buffer0, some ⟨some FAILED, none⟩, FAILED⟩, s, ?_, ⟨rfl, rfl, rfl, ?_⟩, h⟩
    · rw [hw1_write, h.push_full (Lifo.push_eq_none.1 hpush)]
      rfl
    · rintro o i ho hi
      cases ho
      cases hi
  | some l' =>
    obtain ⟨s', hs', h', hmin, hmax⟩ := h.push (Lifo.push_eq_some.1 hpush)
    refine ⟨⟨.write buffer0, some ⟨some l'.items.length, some (s.stackpointer + 1)⟩,
      l'.items.length⟩, s', ?_, ⟨rfl, rfl, rfl, ?_⟩, h'⟩
    · rw [hw1_write, hs']
      rfl
    · rintro o i ho hi
      cases ho
      cases hi
      exact ⟨hmin, hmax⟩

/-- `hw1_ioctl` serves the stack. -/
theorem Refines.ioctl (h : Refines s l) (cmd : UInt32) :
    ∃ e s', hw1_ioctl s cmd = some (e, s') ∧
      Matches e (.ioctl cmd, (serve l (.ioctl cmd)).1) ∧ Refines s' (serve l (.ioctl cmd)).2 := by
  rw [serve]
  by_cases hcmd : cmd = 0
  · refine ⟨⟨.ioctl cmd, some ⟨none, none⟩, 0⟩, { s with stackpointer := -1 }, ?_, ?_, ?_⟩
    · rw [hw1_ioctl, if_pos hcmd]
      rfl
    · rw [if_pos hcmd]
      refine ⟨rfl, rfl, rfl, fun o i ho hi => ?_⟩
      cases ho
      cases hi
    · rw [if_pos hcmd]
      exact h.clean
  · refine ⟨⟨.ioctl cmd, none, 0⟩, s, by rw [hw1_ioctl, if_neg hcmd], ?_, ?_⟩
    · rw [if_neg hcmd]
      refine ⟨rfl, rfl, rfl, fun o i ho hi => ?_⟩
      cases ho
    · rw [if_neg hcmd]
      exact h

/-- Each call goes as the abstract one. -/
theorem Refines.serves (h : Refines s l) (c : Call) :
    ∃ e s', step s c = some (e, s') ∧ Matches e (c, (serve l c).1) ∧ Refines s' (serve l c).2 := by
  cases c with
  | read => exact h.read
  | write buffer0 => exact h.write buffer0
  | ioctl cmd => exact h.ioctl cmd

/-! ## Runs -/

variable {τ : List Event}

/-- A run of the driver goes as a run of the abstract one. -/
theorem matched_of_run (hrun : Run (StepBy step) start τ s) :
    ∃ τ' l, Run (StepBy serveStep) Lifo.empty τ' l ∧ Refines s l ∧ List.Forall₂ Matches τ τ' := by
  refine hrun.simulate Refines Matches refines_start ?_
  rintro s e s₁ l h ⟨c, hc⟩
  obtain ⟨e', s₁', hstep, hmatch, h'⟩ := h.serves c
  rw [hc] at hstep
  cases hstep
  exact ⟨_, _, ⟨c, rfl⟩, hmatch, h'⟩

/-- The run has gone as a run of the abstract driver, and the next call will not fail. -/
def KeepsStack (τ : List Event) (s : State) : Prop :=
  ∃ τ' l, Run (StepBy serveStep) Lifo.empty τ' l ∧ Refines s l ∧ List.Forall₂ Matches τ τ' ∧
    ∀ c, (step s c).isSome = true

/-- For every sequence of calls. -/
theorem stack_refines (hrun : Run (StepBy step) start τ s) : KeepsStack τ s := by
  obtain ⟨τ', l, hrun', h, hmatches⟩ := matched_of_run hrun
  refine ⟨τ', l, hrun', h, hmatches, fun c => ?_⟩
  obtain ⟨e, s', hstep, -, -⟩ := h.serves c
  rw [hstep]
  rfl

/-- Two bytes are pushed and one is popped. -/
theorem stack_refines_two :
    ∃ (τ : List Event) (s : State), Run (StepBy step) start τ s ∧ s.stackpointer = 0 ∧
      KeepsStack τ s := by
  let r := (perform step [] start [.write 1, .write (-2), .read]).get (by decide +kernel)
  have hrun : Run (StepBy step) start r.1 r.2 := run_of_get _
  exact ⟨r.1, r.2, hrun, by decide +kernel, stack_refines hrun⟩

end EE516.StackDriver
