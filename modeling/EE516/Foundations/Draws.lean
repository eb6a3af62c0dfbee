import Mathlib.Data.List.Perm.Subperm

/-!
# Drawing from a stock without repetition

A counted loop takes the elements of a stock one after another and never takes one twice. `Draws`
says of the elements taken and of the count that is left what such a loop keeps; with nothing left
the stock has been taken in some order (`Draws.perm`), and before that there is something to take
(`Draws.exists_unused`).
-/

set_option autoImplicit false

namespace EE516.Foundations

universe u

variable {α : Type u} {stock used : List α} {left : Nat} {b : α}

/-- Some elements of the stock have been taken, each one once, and `left` are still to be taken. -/
structure Draws (stock used : List α) (left : Nat) : Prop where
  nodup : used.Nodup
  subset : used ⊆ stock
  total : used.length + left = stock.length

namespace Draws

theorem start (stock : List α) : Draws stock [] stock.length where
  nodup := .nil
  subset := List.nil_subset stock
  total := Nat.zero_add _

/-- An element of the stock that was not taken is taken. -/
theorem take (h : Draws stock used (left + 1)) (hb : b ∈ stock) (hnew : b ∉ used) :
    Draws stock (b :: used) left where
  nodup := List.nodup_cons.2 ⟨hnew, h.nodup⟩
  subset := List.cons_subset.2 ⟨hb, h.subset⟩
  total := by
    have htotal := h.total
    rw [List.length_cons]
    omega

/-- While the count is positive, the stock has an element that was not taken. -/
theorem exists_unused (h : Draws stock used left) (hstock : stock.Nodup) (hleft : 0 < left) :
    ∃ b ∈ stock, b ∉ used := by
  by_contra hnone
  have hall : stock ⊆ used := by
    intro b hb
    by_contra hnew
    exact hnone ⟨b, hb, hnew⟩
  have hle : stock.length ≤ used.length := (List.subperm_of_subset hstock hall).length_le
  have htotal := h.total
  omega

/-- With nothing left to take, the elements taken are those of the stock. -/
theorem perm (h : Draws stock used 0) : used.Perm stock :=
  (List.subperm_of_subset h.nodup h.subset).perm_of_length_le (Nat.le_of_eq h.total.symm)

end Draws

end EE516.Foundations
