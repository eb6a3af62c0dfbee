import Mathlib.Algebra.BigOperators.Group.Finset.Basic
import Mathlib.Algebra.Order.BigOperators.Group.Finset
import Mathlib.Data.Fintype.BigOperators

/-!
# Sums over threads and monitors

Every thread of a program is at a position, and one step moves one thread. A semaphore is accounted
for by the threads that hold one of its units: the sum of a weight over the positions of all threads
(`tally`) changes with the moving thread only (`tally_update`). A monitor is a mutex together with
what is true of the data it guards, while nobody holds it and at every position of a holder;
`Monitor.Inv.move` is its step rule.
-/

set_option autoImplicit false

namespace EE516.Foundations

universe u v w

/-! ## Tallies -/

section Tally

variable {T : Type u} [Fintype T] {π : Type v} {weight : π → Nat} {pos : T → π} {t : T}

/-- The sum of a weight over the positions of the threads. -/
def tally (weight : π → Nat) (pos : T → π) : Nat := ∑ t, weight (pos t)

/-- Nothing is counted exactly if no thread has a weight. -/
theorem tally_eq_zero_iff : tally weight pos = 0 ↔ ∀ t, weight (pos t) = 0 := by
  simp [tally]

/-- If something is counted, some thread has a weight. -/
theorem exists_of_tally_pos (h : 0 < tally weight pos) : ∃ t, 0 < weight (pos t) := by
  by_contra hnone
  have hzero : tally weight pos = 0 :=
    tally_eq_zero_iff.2 fun t => Nat.eq_zero_of_not_pos fun ht => hnone ⟨t, ht⟩
  omega

theorem tally_add (f g : π → Nat) (pos : T → π) :
    tally (fun x => f x + g x) pos = tally f pos + tally g pos :=
  Finset.sum_add_distrib

theorem tally_mono {f g : π → Nat} (h : ∀ x, f x ≤ g x) (pos : T → π) :
    tally f pos ≤ tally g pos :=
  Finset.sum_le_sum fun t _ => h (pos t)

variable [DecidableEq T]

/-- A tally is the weight of one thread and those of the others. -/
theorem tally_eq_add_erase (weight : π → Nat) (pos : T → π) (t : T) :
    tally weight pos = weight (pos t) + ∑ u ∈ Finset.univ.erase t, weight (pos u) :=
  (Finset.add_sum_erase _ (fun u => weight (pos u)) (Finset.mem_univ t)).symm

theorem le_tally (weight : π → Nat) (pos : T → π) (t : T) : weight (pos t) ≤ tally weight pos := by
  rw [tally_eq_add_erase weight pos t]
  exact Nat.le_add_right _ _

/-- Moving one thread changes the tally by the difference of its weights. -/
theorem tally_update (weight : π → Nat) (pos : T → π) (t : T) (p : π) :
    tally weight (Function.update pos t p) + weight (pos t) = tally weight pos + weight p := by
  have hrest : ∑ u ∈ Finset.univ.erase t, weight (Function.update pos t p u) =
      ∑ u ∈ Finset.univ.erase t, weight (pos u) := by
    refine Finset.sum_congr rfl fun u hu => ?_
    rw [Function.update_of_ne (Finset.ne_of_mem_erase hu)]
  rw [tally_eq_add_erase weight _ t, tally_eq_add_erase weight pos t, hrest, Function.update_self]
  omega

/-- Two threads together weigh no more than all. -/
theorem add_le_tally (weight : π → Nat) (pos : T → π) {t u : T} (h : t ≠ u) :
    weight (pos t) + weight (pos u) ≤ tally weight pos := by
  rw [tally_eq_add_erase weight pos t]
  refine Nat.add_le_add_left ?_ _
  have hu : u ∈ Finset.univ.erase t := Finset.mem_erase.2 ⟨h.symm, Finset.mem_univ u⟩
  rw [← Finset.add_sum_erase _ (fun u => weight (pos u)) hu]
  exact Nat.le_add_right _ _

/-- With a tally of at most 1, one thread at most has a weight. -/
theorem unique_of_tally_le_one (h : tally weight pos ≤ 1) {t u : T} (ht : 0 < weight (pos t))
    (hu : 0 < weight (pos u)) : t = u := by
  by_contra hne
  have hadd := add_le_tally weight pos hne
  omega

end Tally

/-- The number of threads at positions of a kind is a tally. -/
theorem card_filter_eq_tally {T : Type u} [Fintype T] {π : Type v} (kind : π → Bool) (pos : T → π) :
    (Finset.univ.filter fun t => kind (pos t) = true).card =
      tally (fun x => (kind x).toNat) pos := by
  rw [Finset.card_filter, tally]
  refine Finset.sum_congr rfl fun t _ => ?_
  cases kind (pos t) <;> rfl

/-- A kind of position is counted exactly if some thread is at one. -/
theorem tally_kind_pos {T : Type u} [Fintype T] {π : Type v} (kind : π → Bool) (pos : T → π) :
    0 < tally (fun x => (kind x).toNat) pos ↔ ∃ t, kind (pos t) = true := by
  rw [← card_filter_eq_tally, Finset.card_pos, Finset.filter_nonempty_iff]
  simp

/-! ## Monitors -/

/-- A mutex that guards data: the positions that hold it, what is true of the data while nobody
holds it, and what is true of them while a thread holds it at a position. -/
structure Monitor (π : Type v) (D : Type w) where
  holds : π → Bool
  idle : D → Prop
  busy : D → π → Prop

namespace Monitor

variable {π : Type v} {D : Type w} {M : Monitor π D}

/-- What a thread counts for at the mutex. -/
def weight (M : Monitor π D) (p : π) : Nat := (M.holds p).toNat

theorem weight_of_holds {x : π} (h : M.holds x = true) : M.weight x = 1 := by
  simp [weight, h]

theorem weight_of_not_holds {x : π} (h : M.holds x = false) : M.weight x = 0 := by
  simp [weight, h]

variable {T : Type u} [Fintype T] {m m' : Nat} {d d' : D} {pos : T → π} {y : π} {t u : T}

/-- The mutex is free or has one holder, and the data are as they must be. -/
structure Inv (M : Monitor π D) (m : Nat) (d : D) (pos : T → π) : Prop where
  one : m + tally M.weight pos = 1
  idle : m = 1 → M.idle d
  busy : ∀ t, M.holds (pos t) = true → M.busy d (pos t)

/-- What a step of one thread, from the position `x` to `y`, may do to the mutex and the data. -/
inductive Move (M : Monitor π D) : Nat → D → π → Nat → D → π → Prop
  | enter {m : Nat} {d d' : D} {x y : π} :
      M.holds x = false → M.holds y = true → (M.idle d → M.busy d' y) → Move M (m + 1) d x m d' y
  | stay {m : Nat} {d d' : D} {x y : π} :
      M.holds x = true → M.holds y = true → (M.busy d x → M.busy d' y) → Move M m d x m d' y
  | leave {m : Nat} {d d' : D} {x y : π} :
      M.holds x = true → M.holds y = false → (M.busy d x → M.idle d') → Move M m d x (m + 1) d' y
  | outside {m : Nat} {d d' : D} {x y : π} :
      M.holds x = false → M.holds y = false → (M.idle d → M.idle d') →
        (∀ q, M.holds q = true → M.busy d q → M.busy d' q) → Move M m d x m d' y

/-- A step outside the mutex that leaves the data as they are. -/
theorem Move.same {x y : π} (hx : M.holds x = false) (hy : M.holds y = false) (hd : d' = d) :
    M.Move m d x m d' y := by
  subst hd
  exact .outside hx hy id fun _ _ => id

theorem Inv.start (hpos : ∀ t, M.holds (pos t) = false) (hd : M.idle d) : M.Inv 1 d pos where
  one := by
    have hzero : tally M.weight pos = 0 :=
      tally_eq_zero_iff.2 fun t => weight_of_not_holds (hpos t)
    omega
  idle _ := hd
  busy t ht := absurd ht (by simp [hpos t])

/-- A taken mutex has a holder. -/
theorem Inv.holder (h : M.Inv m d pos) (hm : m = 0) : ∃ t, M.holds (pos t) = true := by
  have hone := h.one
  obtain ⟨t, ht⟩ := exists_of_tally_pos (show 0 < tally M.weight pos by omega)
  refine ⟨t, ?_⟩
  by_contra hno
  have hzero := weight_of_not_holds (Bool.eq_false_of_not_eq_true hno)
  omega

variable [DecidableEq T]

/-- The mutex is taken while a thread holds it. -/
theorem Inv.eq_zero (h : M.Inv m d pos) (ht : M.holds (pos t) = true) : m = 0 := by
  have hle := le_tally M.weight pos t
  have hpos := weight_of_holds ht
  have hone := h.one
  omega

/-- At most one thread is inside. -/
theorem Inv.unique (h : M.Inv m d pos) (ht : M.holds (pos t) = true)
    (hu : M.holds (pos u) = true) : t = u := by
  have hone := h.one
  have ht := weight_of_holds ht
  have hu := weight_of_holds hu
  exact unique_of_tally_le_one (show tally M.weight pos ≤ 1 by omega) (by omega) (by omega)

/-- The invariant survives every move. -/
theorem Inv.move (h : M.Inv m d pos) (hmove : M.Move m d (pos t) m' d' y) :
    M.Inv m' d' (Function.update pos t y) := by
  have htally := tally_update M.weight pos t y
  have hone := h.one
  have hother : ∀ u, u ≠ t → M.holds (pos u) = true → M.holds (pos t) = false := by
    intro u hut hu
    by_contra ht
    exact hut (h.unique hu (by simpa using ht))
  cases hmove with
  | enter hx hy hd =>
    have hwx := weight_of_not_holds hx
    have hwy := weight_of_holds hy
    refine ⟨by omega, fun hm => by omega, fun u hu => ?_⟩
    by_cases hut : u = t
    · subst hut
      rw [Function.update_self]
      exact hd (h.idle (by omega))
    · rw [Function.update_of_ne hut] at hu
      -- the mutex was free
      exact absurd (h.eq_zero hu) (by omega)
  | stay hx hy hd =>
    have hwx := weight_of_holds hx
    have hwy := weight_of_holds hy
    refine ⟨by omega, fun hm => absurd (h.eq_zero hx) (by omega), fun u hu => ?_⟩
    by_cases hut : u = t
    · subst hut
      rw [Function.update_self]
      exact hd (h.busy u hx)
    · rw [Function.update_of_ne hut] at hu
      exact absurd hx (by simp [hother u hut hu])
  | leave hx hy hd =>
    have hwx := weight_of_holds hx
    have hwy := weight_of_not_holds hy
    refine ⟨by omega, fun _ => hd (h.busy t hx), fun u hu => ?_⟩
    by_cases hut : u = t
    · subst hut
      rw [Function.update_self, hy] at hu
      cases hu
    · rw [Function.update_of_ne hut] at hu
      exact absurd hx (by simp [hother u hut hu])
  | outside hx hy hidle hbusy =>
    have hwx := weight_of_not_holds hx
    have hwy := weight_of_not_holds hy
    refine ⟨by omega, fun hm => hidle (h.idle hm), fun u hu => ?_⟩
    by_cases hut : u = t
    · subst hut
      rw [Function.update_self, hy] at hu
      cases hu
    · rw [Function.update_of_ne hut] at hu ⊢
      exact hbusy _ hu (h.busy u hu)

end Monitor

end EE516.Foundations
