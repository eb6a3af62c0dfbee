import Mathlib.Data.Finset.Card
import Mathlib.Data.Finset.Dedup
import EE516.Foundations.Recency

/-!
# Reuse distance

A list that moves each accessed element to its front and keeps at most `n` elements holds the `n`
elements that were accessed most recently. An access finds its element there exactly if fewer than
`n` other elements were accessed since the access before it. As before, a history has the newest
access first.
-/

set_option autoImplicit false

namespace EE516.Foundations

universe u v

variable {α : Type u} {β : Type v} [DecidableEq α] {τ l : List α} {x y : α} {n : Nat}

/-- The element comes to the front, from inside the list or from outside. -/
def moveToFront (x : α) (l : List α) : List α :=
  x :: l.erase x

/-- The accessed elements in the order of their last accesses. -/
def recent : List α → List α
  | [] => []
  | x :: τ => moveToFront x (recent τ)

/-- The list after an access with room for `n` elements. -/
def access (n : Nat) (x : α) (l : List α) : List α :=
  (moveToFront x l).take n

/-- The number of different elements that were accessed since the last access to `x`. -/
def reuseDistance (τ : List α) (x : α) : Nat :=
  (τ.takeWhile (· ≠ x)).toFinset.card

/-- The element was accessed, and fewer than `n` others were accessed after it. -/
def ReusedWithin (n : Nat) (τ : List α) (x : α) : Prop :=
  x ∈ τ ∧ reuseDistance τ x < n

instance (n : Nat) (τ : List α) (x : α) : Decidable (ReusedWithin n τ x) :=
  inferInstanceAs (Decidable (_ ∧ _))

/-- The accesses of a history that a list with room for `n` elements does not serve. -/
def missed (n : Nat) : List α → List α
  | [] => []
  | x :: τ => if ReusedWithin n τ x then missed n τ else x :: missed n τ

/-! ## The order of the last accesses -/

/-- The recent elements are those of the history. -/
@[simp] theorem mem_recent : x ∈ recent τ ↔ x ∈ τ := by
  induction τ with
  | nil => exact Iff.rfl
  | cons y τ ih =>
    rw [recent, moveToFront, List.mem_cons, List.mem_cons]
    by_cases h : x = y
    · simp [h]
    · rw [List.mem_erase_of_ne h, ih]

theorem nodup_recent (τ : List α) : (recent τ).Nodup := by
  induction τ with
  | nil => exact .nil
  | cons y τ ih => exact List.nodup_cons.2 ⟨ih.not_mem_erase, ih.erase y⟩

/-- The elements before `x` are those that were accessed after it. -/
theorem takeWhile_recent (τ : List α) (x : α) :
    ((recent τ).takeWhile (· ≠ x)).toFinset = (τ.takeWhile (· ≠ x)).toFinset := by
  induction τ with
  | nil => rfl
  | cons y τ ih =>
    rw [recent, moveToFront]
    by_cases h : y = x
    · simp [h]
    · have herase : ∀ l : List α, l.Nodup →
          insert y ((l.erase y).takeWhile (· ≠ x)).toFinset =
            insert y (l.takeWhile (· ≠ x)).toFinset := by
        intro l hl
        induction l with
        | nil => rfl
        | cons z l ihl =>
          obtain ⟨hz, hl⟩ := List.nodup_cons.1 hl
          by_cases hzy : z = y
          · subst hzy
            simp [h]
          · rw [List.erase_cons_tail (by simpa using hzy)]
            by_cases hzx : z = x
            · simp [hzx]
            · simp only [List.takeWhile_cons, hzx, ne_eq, not_false_eq_true, decide_true, ite_true,
                List.toFinset_cons]
              rw [Finset.insert_comm, ihl hl, Finset.insert_comm]
      simp only [List.takeWhile_cons, h, ne_eq, not_false_eq_true, decide_true, ite_true,
        List.toFinset_cons]
      rw [herase _ (nodup_recent τ), ih]

/-- Where `x` stands in the order of the last accesses. -/
theorem idxOf_recent (hx : x ∈ τ) : (recent τ).idxOf x = reuseDistance τ x := by
  have hcard : ((recent τ).takeWhile (· ≠ x)).toFinset.card =
      ((recent τ).takeWhile (· ≠ x)).length :=
    List.toFinset_card_of_nodup ((nodup_recent τ).sublist (List.takeWhile_sublist _))
  have hlt : (recent τ).idxOf x < (recent τ).length :=
    List.idxOf_lt_length_of_mem (mem_recent.2 hx)
  rw [reuseDistance, ← takeWhile_recent, hcard, List.takeWhile_eq_take_findIdx_not,
    List.length_take]
  simp only [List.idxOf, ne_eq, decide_not, Bool.not_not] at hlt ⊢
  exact (Nat.min_eq_left (Nat.le_of_lt hlt)).symm

/-- The first `n` elements in the order of the last accesses are those within the distance `n`. -/
theorem mem_take_recent : x ∈ (recent τ).take n ↔ ReusedWithin n τ x := by
  constructor
  · intro h
    have hx : x ∈ recent τ := List.mem_of_mem_take h
    refine ⟨mem_recent.1 hx, ?_⟩
    rw [← idxOf_recent (mem_recent.1 hx)]
    exact (List.mem_take_iff_idxOf_lt hx).1 h
  · rintro ⟨hx, hlt⟩
    rw [List.mem_take_iff_idxOf_lt (mem_recent.2 hx), idxOf_recent hx]
    exact hlt

/-! ## A list with room for `n` elements -/

/-- The first `n` elements that an erasure leaves are among the first `n + 1`. -/
theorem take_erase (l : List α) (x : α) (n : Nat) :
    ((l.take (n + 1)).erase x).take n = (l.erase x).take n := by
  induction l generalizing n with
  | nil => rfl
  | cons y l ih =>
    by_cases h : y = x
    · simp [h]
    · rw [List.take_succ_cons, List.erase_cons_tail (by simpa using h),
        List.erase_cons_tail (by simpa using h)]
      cases n with
      | zero => rfl
      | succ n => rw [List.take_succ_cons, List.take_succ_cons, ih]

/-- A list with room for `n` elements holds the `n` most recent ones. -/
theorem access_recent (hn : 0 < n) (τ : List α) (x : α) :
    access n x ((recent τ).take n) = (recent (x :: τ)).take n := by
  obtain ⟨n, rfl⟩ := Nat.exists_eq_add_of_lt hn
  rw [access, recent, moveToFront, moveToFront, Nat.zero_add, List.take_succ_cons,
    List.take_succ_cons, take_erase]

theorem moveToFront_of_notMem (h : x ∉ l) : moveToFront x l = x :: l := by
  rw [moveToFront, List.erase_of_not_mem h]

theorem moveToFront_perm (h : x ∈ l) : (moveToFront x l).Perm l :=
  (List.perm_cons_erase h).symm

/-- The list keeps more than the elements themselves. -/
theorem map_eraseP {f : β → α} {p : β → Bool} {l : List β}
    (h : ∀ z ∈ l, p z = true ↔ f z = x) : (l.eraseP p).map f = (l.map f).erase x := by
  induction l with
  | nil => rfl
  | cons z l ih =>
    have hz := h z List.mem_cons_self
    by_cases hp : p z = true
    · rw [List.eraseP_cons_of_pos hp, List.map_cons, hz.1 hp, List.erase_cons_head]
    · have hne : ¬ (f z == x) = true := fun he => hp (hz.2 (beq_iff_eq.1 he))
      rw [List.eraseP_cons_of_neg hp, List.map_cons, List.map_cons, List.erase_cons_tail hne,
        ih fun y hy => h y (List.mem_cons_of_mem z hy)]

end EE516.Foundations
