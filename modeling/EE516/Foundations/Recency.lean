import Mathlib.Data.List.Basic

/-!
# Lists in the order of recency

A history is the list of touches with the newest one first, so that the first index of an element
in it tells how long ago the element was touched last. A list keeps the order of recency when an
element is moved or added to its front at each touch and when elements leave it; its last element is
then the one that was touched least recently.
-/

set_option autoImplicit false

namespace EE516.Foundations

universe u

variable {α : Type u} [DecidableEq α] {τ l l' : List α} {x y : α}

/-- All elements were touched, each one after the elements behind it. -/
structure NewestFirst (τ l : List α) : Prop where
  touched : ∀ x ∈ l, x ∈ τ
  newer : l.Pairwise fun x y => τ.idxOf x < τ.idxOf y

theorem newestFirst_nil (τ : List α) : NewestFirst τ [] :=
  ⟨nofun, .nil⟩

/-- Elements may leave the list. -/
theorem NewestFirst.sublist (h : NewestFirst τ l) (hs : l'.Sublist l) : NewestFirst τ l' :=
  ⟨fun x hx => h.touched x (hs.subset hx), h.newer.sublist hs⟩

/-- A touch puts the element in front of the others. -/
theorem NewestFirst.touch (h : NewestFirst τ l) (hx : x ∉ l) : NewestFirst (x :: τ) (x :: l) := by
  have hne : ∀ y ∈ l, x ≠ y := fun y hy hxy => hx (hxy ▸ hy)
  constructor
  · intro y hy
    rcases List.mem_cons.1 hy with rfl | hy
    · exact List.mem_cons_self
    · exact List.mem_cons_of_mem x (h.touched y hy)
  · rw [List.pairwise_cons]
    constructor
    · intro y hy
      rw [List.idxOf_cons_self, List.idxOf_cons_ne _ (hne y hy)]
      exact Nat.succ_pos _
    · refine h.newer.imp_of_mem ?_
      intro y z hy hz hyz
      rw [List.idxOf_cons_ne _ (hne y hy), List.idxOf_cons_ne _ (hne z hz)]
      exact Nat.succ_lt_succ hyz

theorem NewestFirst.nodup (h : NewestFirst τ l) : l.Nodup := by
  refine h.newer.imp ?_
  rintro x _ hlt rfl
  exact Nat.lt_irrefl _ hlt

/-- A touch of an element of the list, or of a new one, moves it to the front. -/
theorem NewestFirst.moveToFront (h : NewestFirst τ l) (x : α) :
    NewestFirst (x :: τ) (x :: l.erase x) :=
  (h.sublist List.erase_sublist).touch h.nodup.not_mem_erase

/-- The last touch of the last element is the oldest one. -/
theorem NewestFirst.last_oldest (h : NewestFirst τ (l ++ [y])) (hx : x ∈ l) :
    τ.idxOf x < τ.idxOf y :=
  (List.pairwise_append.1 h.newer).2.2 x hx y (List.mem_singleton_self y)

end EE516.Foundations
