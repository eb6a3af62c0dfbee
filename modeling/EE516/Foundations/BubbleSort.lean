import Mathlib.Data.List.Perm.Basic
import Mathlib.Order.Lattice
import EE516.Foundations.StableSort

/-!
# Bubble sort

One pass of a bubble sort carries a greatest element to the end (`carry_last`). A list whose last
elements are sorted and not below the others is settled up to them; a pass over the others settles
one more (`Settled.carry`), and a list that is settled up to its first element is sorted.
-/

set_option autoImplicit false

namespace EE516.Foundations

universe u v

variable {α : Type u} {κ : Type v} [LinearOrder κ] {key : α → κ} {x y : α} {l front suffix : List α}

/-- One pass: the element at hand is exchanged with a smaller neighbour, or left for a neighbour
that is not smaller. -/
def carry (key : α → κ) : α → List α → List α
  | x, [] => [x]
  | x, y :: l => if key y < key x then y :: carry key x l else x :: carry key y l

/-- Carrying an element along a list rearranges the two. -/
theorem carry_perm (key : α → κ) (x : α) (l : List α) : (carry key x l).Perm (x :: l) := by
  induction l generalizing x with
  | nil => exact .refl _
  | cons y l ih =>
    rw [carry]
    split
    · exact ((ih x).cons y).trans (.swap x y l)
    · exact (ih y).cons x

theorem length_carry (key : α → κ) (x : α) (l : List α) : (carry key x l).length = l.length + 1 :=
  (carry_perm key x l).length_eq

/-- A pass exchanges elements with different keys only. -/
theorem sameClasses_carry (key : α → κ) (x : α) (l : List α) :
    SameClasses key (carry key x l) (x :: l) := by
  induction l generalizing x with
  | nil => exact .refl key [x]
  | cons y l ih =>
    rw [carry]
    split
    case isTrue hlt => exact ((ih x).cons y).trans (sameClasses_swap (ne_of_lt hlt) l)
    case isFalse => exact (ih y).cons x

/-- A pass ends with a greatest element. -/
theorem carry_last (key : α → κ) (x : α) (l : List α) :
    ∃ front m, carry key x l = front ++ [m] ∧ ∀ a ∈ x :: l, key a ≤ key m := by
  induction l generalizing x with
  | nil =>
    refine ⟨[], x, rfl, fun a ha => ?_⟩
    rw [List.mem_singleton.1 ha]
  | cons y l ih =>
    rw [carry]
    split
    · rename_i hlt
      obtain ⟨front, m, hcarry, hmax⟩ := ih x
      refine ⟨y :: front, m, by rw [hcarry]; rfl, fun a ha => ?_⟩
      rcases List.mem_cons.1 ha with rfl | ha
      · exact hmax _ List.mem_cons_self
      · rcases List.mem_cons.1 ha with rfl | ha
        · exact le_trans (le_of_lt hlt) (hmax _ List.mem_cons_self)
        · exact hmax a (List.mem_cons_of_mem _ ha)
    · rename_i hge
      obtain ⟨front, m, hcarry, hmax⟩ := ih y
      refine ⟨x :: front, m, by rw [hcarry]; rfl, fun a ha => ?_⟩
      rcases List.mem_cons.1 ha with rfl | ha
      · exact le_trans (not_lt.1 hge) (hmax _ List.mem_cons_self)
      · exact hmax a ha

/-- The last elements are sorted and not below the first ones. -/
structure Settled (key : α → κ) (front suffix : List α) : Prop where
  sorted : suffix.Pairwise fun a b => key a ≤ key b
  above : ∀ a ∈ front, ∀ b ∈ suffix, key a ≤ key b

theorem settled_nil (key : α → κ) (front : List α) : Settled key front [] where
  sorted := .nil
  above _ _ _ hb := absurd hb List.not_mem_nil

/-- A pass over the first elements settles one more. -/
theorem Settled.carry (h : Settled key (x :: l) suffix) :
    ∃ front m, Foundations.carry key x l = front ++ [m] ∧ Settled key front (m :: suffix) := by
  obtain ⟨front, m, hcarry, hmax⟩ := carry_last key x l
  have hmem : ∀ a ∈ front ++ [m], a ∈ x :: l := by
    intro a ha
    rw [← hcarry] at ha
    exact (carry_perm key x l).mem_iff.1 ha
  refine ⟨front, m, hcarry, ?_, ?_⟩
  · refine List.pairwise_cons.2 ⟨fun b hb => ?_, h.sorted⟩
    exact h.above m (hmem m (List.mem_append_right _ List.mem_cons_self)) b hb
  · intro a ha b hb
    have hx := hmem a (List.mem_append_left _ ha)
    rcases List.mem_cons.1 hb with rfl | hb
    · exact hmax a hx
    · exact h.above a hx b hb

/-- A list that is settled up to its first element is sorted. -/
theorem Settled.pairwise (h : Settled key front suffix) (hfront : front.length ≤ 1) :
    (front ++ suffix).Pairwise fun a b => key a ≤ key b := by
  cases front with
  | nil => exact h.sorted
  | cons x l =>
    obtain rfl : l = [] := List.length_eq_zero_iff.1 (Nat.le_zero.1 (Nat.le_of_succ_le_succ hfront))
    exact List.pairwise_cons.2 ⟨fun b hb => h.above x List.mem_cons_self b hb, h.sorted⟩

end EE516.Foundations
