import Mathlib.Data.List.Basic

/-!
# Bounded stacks

A stack that holds a bounded number of elements, the last one pushed in front. The bound is part of
the stack, so a stack that holds too much cannot be built.
-/

set_option autoImplicit false

namespace EE516.Foundations

universe u

variable {α : Type u} {capacity : Nat}

/-- A stack with its elements, the top first. -/
@[ext]
structure Lifo (α : Type u) (capacity : Nat) where
  items : List α
  bounded : items.length ≤ capacity

namespace Lifo

/-- The stack without elements. -/
def empty : Lifo α capacity := ⟨[], Nat.zero_le _⟩

/-- The stack with one more element, unless it is full. -/
def push (l : Lifo α capacity) (x : α) : Option (Lifo α capacity) :=
  if h : l.items.length < capacity then some ⟨x :: l.items, h⟩ else none

/-- The element pushed last, and the stack without it, unless it is empty. -/
def pop : Lifo α capacity → Option (α × Lifo α capacity)
  | ⟨[], _⟩ => none
  | ⟨x :: items, h⟩ => some (x, ⟨items, Nat.le_of_succ_le h⟩)

@[simp]
theorem items_empty : (empty : Lifo α capacity).items = [] := rfl

/-- A push that goes through puts its element on top. -/
theorem push_eq_some {l l' : Lifo α capacity} {x : α} :
    l.push x = some l' ↔ l'.items = x :: l.items := by
  rw [push]
  constructor
  · intro h
    split at h
    · cases h
      rfl
    · cases h
  · intro h
    have hlt : l.items.length < capacity := by
      have hbounded := l'.bounded
      rw [h] at hbounded
      exact hbounded
    rw [dif_pos hlt]
    exact congrArg some (Lifo.ext h.symm)

/-- A push fails exactly if the stack is full. -/
theorem push_eq_none {l : Lifo α capacity} {x : α} :
    l.push x = none ↔ l.items.length = capacity := by
  have hbounded := l.bounded
  rw [push]
  split
  · simp only [reduceCtorEq, false_iff]
    omega
  · simp only [true_iff]
    omega

/-- A pop that goes through takes the element on top. -/
theorem pop_eq_some {l l' : Lifo α capacity} {x : α} :
    l.pop = some (x, l') ↔ l.items = x :: l'.items := by
  obtain ⟨items, h⟩ := l
  cases items with
  | nil => simp [pop]
  | cons y items => simp [pop, Lifo.ext_iff]

/-- A pop fails exactly if the stack is empty. -/
theorem pop_eq_none {l : Lifo α capacity} : l.pop = none ↔ l.items = [] := by
  obtain ⟨items, h⟩ := l
  cases items with
  | nil => simp [pop]
  | cons y items => simp [pop]

end Lifo

end EE516.Foundations
