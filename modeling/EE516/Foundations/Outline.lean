import Mathlib.Data.List.Basic

/-!
# Outlines of forests

A forest is written as an outline: one line for each label with the depth of the label, parents
before their children. The depths alone tell which lines are below which, so that the outline
determines the forest.
-/

set_option autoImplicit false

namespace EE516.Foundations

universe u

/-- Names in an order, each with a forest below it. -/
inductive Forest (α : Type u) : Type u where
  | nil
  | cons (a : α) (below rest : Forest α)

namespace Forest

variable {α : Type u} {d : Nat} {f g : Forest α}

/-- The names from top to bottom, each with its depth. -/
def outline (d : Nat) : Forest α → List (Nat × α)
  | nil => []
  | cons a below rest => (d, a) :: (below.outline (d + 1) ++ rest.outline d)

@[simp]
theorem outline_nil : (nil : Forest α).outline d = [] :=
  rfl

@[simp]
theorem outline_cons (a : α) :
    (cons a f g).outline d = (d, a) :: (f.outline (d + 1) ++ g.outline d) :=
  rfl

/-- No line of an outline is less deep than the forest. -/
theorem le_of_mem_outline {p : Nat × α} (hp : p ∈ f.outline d) : d ≤ p.1 := by
  induction f generalizing d with
  | nil => exact absurd hp List.not_mem_nil
  | cons a below rest ihb ihr =>
    rw [outline_cons, List.mem_cons, List.mem_append] at hp
    rcases hp with rfl | hp | hp
    · exact Nat.le_refl d
    · exact Nat.le_of_succ_le (ihb hp)
    · exact ihr hp

/-- The lines below a label end at the next line of its own depth. -/
theorem takeWhile_outline (f g : Forest α) (d : Nat) :
    (f.outline (d + 1) ++ g.outline d).takeWhile (fun p => d < p.1) = f.outline (d + 1) := by
  have hbelow : ∀ p ∈ f.outline (d + 1), decide (d < p.1) = true := by
    intro p hp
    exact decide_eq_true (le_of_mem_outline hp)
  rw [List.takeWhile_append_of_pos hbelow]
  cases g with
  | nil => rw [outline_nil, List.takeWhile_nil, List.append_nil]
  | cons a below rest =>
    rw [outline_cons, List.takeWhile_cons_of_neg (by simp), List.append_nil]

/-- A forest can be read back from its outline. -/
theorem outline_injective : Function.Injective (outline d : Forest α → List (Nat × α)) := by
  intro f
  induction f generalizing d with
  | nil =>
    intro g h
    cases g with
    | nil => rfl
    | cons a below rest => cases h
  | cons a below rest ihb ihr =>
    intro g h
    cases g with
    | nil => cases h
    | cons a' below' rest' =>
      obtain ⟨hhead, htail⟩ := List.cons.inj h
      obtain ⟨-, rfl⟩ := Prod.mk.inj hhead
      -- the depths say where the lines below the first label end
      have hbelow : below.outline (d + 1) = below'.outline (d + 1) := by
        rw [← takeWhile_outline below rest d, ← takeWhile_outline below' rest' d, htail]
      rw [hbelow, List.append_cancel_left_eq] at htail
      rw [ihb hbelow, ihr htail]

end Forest

end EE516.Foundations
