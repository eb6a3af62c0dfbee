import Mathlib.Data.List.Perm.Basic
import Mathlib.Order.Lattice

/-!
# Sorting a list again and again

A stable sort keeps the elements with the same key in their order. Two lists have the same classes
when, for each key, the elements with that key stand in the same order in both. This survives
sorting, adding elements at the end and taking elements out, in any mixture. When the one list is
sorted, its head is the element of the other that stands first among those with the least key
(`SameClasses.first`).
-/

set_option autoImplicit false

namespace EE516.Foundations

universe u v

variable {α : Type u} {κ : Type v} [LinearOrder κ] {key key' : α → κ} {l l' q r : List α} {w : α}

/-- The elements with the same key stand in the same order. -/
def SameClasses (key : α → κ) (l q : List α) : Prop :=
  ∀ k, (l.filter fun a => key a = k) = q.filter fun a => key a = k

theorem SameClasses.refl (key : α → κ) (l : List α) : SameClasses key l l :=
  fun _ => rfl

theorem SameClasses.trans (h : SameClasses key l q) (h' : SameClasses key q r) :
    SameClasses key l r :=
  fun k => (h k).trans (h' k)

theorem SameClasses.append (h : SameClasses key l q) (r : List α) :
    SameClasses key (l ++ r) (q ++ r) := by
  intro k
  rw [List.filter_append, List.filter_append, h k]

theorem SameClasses.cons (h : SameClasses key l q) (a : α) :
    SameClasses key (a :: l) (a :: q) := by
  intro k
  rw [List.filter_cons, List.filter_cons, h k]

/-- Neighbours with different keys may be exchanged. -/
theorem sameClasses_swap {a b : α} (h : key a ≠ key b) (l : List α) :
    SameClasses key (a :: b :: l) (b :: a :: l) := by
  intro k
  by_cases ha : key a = k
  · have hb : key b ≠ k := fun hb => h (ha.trans hb.symm)
    simp [ha, hb]
  · simp [List.filter_cons, ha]

theorem SameClasses.filter (h : SameClasses key l q) (P : α → Bool) :
    SameClasses key (l.filter P) (q.filter P) := by
  intro k
  rw [List.filter_comm, h k, List.filter_comm]

/-- Lists with the same classes have the same elements. -/
theorem SameClasses.mem_iff (h : SameClasses key l q) {a : α} : a ∈ l ↔ a ∈ q := by
  have hmem : ∀ r : List α, a ∈ r ↔ a ∈ r.filter fun b => key b = key a := by
    intro r
    simp
  rw [hmem l, hmem q, h (key a)]

/-- Only the keys of the elements count. -/
theorem SameClasses.congr_key (h : SameClasses key l q) (hkey : ∀ a ∈ l, key' a = key a) :
    SameClasses key' l q := by
  have hcongr : ∀ (r : List α) (k : κ), (∀ a ∈ r, key' a = key a) →
      (r.filter fun a => key' a = k) = r.filter fun a => key a = k := by
    intro r k hr
    refine List.filter_congr fun a ha => ?_
    rw [hr a ha]
  intro k
  rw [hcongr l k hkey, hcongr q k fun a ha => hkey a (h.mem_iff.2 ha), h k]

theorem keyLE_trans (key : α → κ) (a b c : α) (hab : decide (key a ≤ key b) = true)
    (hbc : decide (key b ≤ key c) = true) : decide (key a ≤ key c) = true :=
  decide_eq_true (le_trans (of_decide_eq_true hab) (of_decide_eq_true hbc))

theorem keyLE_total (key : α → κ) (a b : α) :
    (decide (key a ≤ key b) || decide (key b ≤ key a)) = true := by
  simpa using le_total (key a) (key b)

/-- Sorting by the key keeps the classes. -/
theorem sameClasses_mergeSort (key : α → κ) (l : List α) :
    SameClasses key (l.mergeSort fun a b => decide (key a ≤ key b)) l := by
  intro k
  let c := l.filter fun a => key a = k
  -- a class is sorted already, so its order stays
  have hsorted : c.Pairwise fun a b => decide (key a ≤ key b) = true := by
    refine List.pairwise_of_forall_mem_list ?_
    intro a ha b hb
    have ha := of_decide_eq_true (List.mem_filter.1 ha).2
    have hb := of_decide_eq_true (List.mem_filter.1 hb).2
    exact decide_eq_true (le_of_eq (ha.trans hb.symm))
  have hsort := List.sublist_mergeSort (keyLE_trans key) (keyLE_total key) hsorted
    List.filter_sublist
  have hsub := hsort.filter fun a => decide (key a = k)
  have hself : (c.filter fun a => decide (key a = k)) = c := by
    rw [List.filter_filter]
    simp [c]
  rw [hself] at hsub
  have hlen := ((List.mergeSort_perm l fun a b => decide (key a ≤ key b)).filter
    fun a => decide (key a = k)).length_eq
  exact (hsub.eq_of_length hlen.symm).symm

/-- What `mergeSort` returns is in the order of the keys. -/
theorem pairwise_mergeSort (key : α → κ) (l : List α) :
    (l.mergeSort fun a b => decide (key a ≤ key b)).Pairwise fun a b => key a ≤ key b := by
  have h := List.pairwise_mergeSort (keyLE_trans key) (keyLE_total key) l
  exact h.imp of_decide_eq_true

/-- The head of the sorted list is the first of those with the least key. -/
theorem SameClasses.first (h : SameClasses key (w :: l) q)
    (hsorted : (w :: l).Pairwise fun a b => key a ≤ key b) :
    ∃ q₁ q₂, q = q₁ ++ w :: q₂ ∧ (∀ a ∈ q₁, key w < key a) ∧ ∀ a ∈ q₂, key w ≤ key a := by
  have hleast : ∀ a ∈ q, key w ≤ key a := by
    intro a ha
    rcases List.mem_cons.1 (h.mem_iff.2 ha) with rfl | ha
    · exact le_refl _
    · exact (List.pairwise_cons.1 hsorted).1 a ha
  have hclass := h (key w)
  rw [List.filter_cons_of_pos (by simp)] at hclass
  obtain ⟨q₁, q₂, rfl, hq₁, -, -⟩ := List.filter_eq_cons_iff.1 hclass.symm
  refine ⟨q₁, q₂, rfl, fun a ha => ?_, fun a ha => hleast a (by simp [ha])⟩
  have hne : key a ≠ key w := by simpa using hq₁ a ha
  exact lt_of_le_of_ne (hleast a (by simp [ha])) hne.symm

theorem SameClasses.append_left (h : SameClasses key l q) (r : List α) :
    SameClasses key (r ++ l) (r ++ q) := by
  intro k
  rw [List.filter_append, List.filter_append, h k]

theorem SameClasses.of_cons (h : SameClasses key (w :: l) (w :: q)) : SameClasses key l q := by
  intro k
  have hk := h k
  rw [List.filter_cons, List.filter_cons] at hk
  split at hk
  · exact (List.cons.inj hk).2
  · exact hk

/-- Sorting is determined by the classes. -/
theorem SameClasses.eq_of_pairwise (h : SameClasses key l q)
    (hl : l.Pairwise fun a b => key a ≤ key b) (hq : q.Pairwise fun a b => key a ≤ key b) :
    l = q := by
  induction l generalizing q with
  | nil =>
    refine (List.eq_nil_iff_forall_not_mem.2 fun a ha => ?_).symm
    exact List.not_mem_nil (h.mem_iff.2 ha)
  | cons w l ih =>
    obtain ⟨q₁, q₂, rfl, hfirst, -⟩ := h.first hl
    -- what stands before the least element of a sorted list is not greater
    have hempty : q₁ = [] := by
      refine List.eq_nil_iff_forall_not_mem.2 fun a ha => ?_
      have hle := (List.pairwise_append.1 hq).2.2 a ha w List.mem_cons_self
      exact absurd (hfirst a ha) (not_lt.2 hle)
    subst hempty
    rw [ih h.of_cons hl.of_cons (List.Pairwise.of_cons hq), List.nil_append]

end EE516.Foundations
