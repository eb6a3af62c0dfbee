import Mathlib.Data.List.TakeWhile
import EE516.Foundations.ReuseDistance

/-!
# Misses of different caches on one history

A cache with room for `n` elements takes in an element when it is accessed and gives up any others.
A history falls into phases of `n` different elements each. Every cache misses once in a phase at
least, and the list that moves each accessed element to its front misses each element of a phase
once at most, so that it has at most `n` times as many misses as any other cache.
-/

set_option autoImplicit false

namespace EE516.Foundations

universe u

variable {α : Type u} [DecidableEq α] {τ : List α} {x : α} {n m : Nat} {C : Finset α}

/-! ## Caches -/

/-- An access of a cache with room for `n` elements that has missed `m` times. -/
structure CacheAccess (n : Nat) (x : α) (C : Finset α) (m : Nat) (C' : Finset α) (m' : Nat) :
    Prop where
  hit : x ∈ C → C' = C ∧ m' = m
  miss : x ∉ C → C' ⊆ insert x C ∧ m' = m + 1
  mem : x ∈ C'
  card : C'.card ≤ n

/-- The cache holds `C` after the history and has missed `m` times. -/
inductive CacheRun (n : Nat) : List α → Finset α → Nat → Prop
  | nil : CacheRun n [] ∅ 0
  | cons {x : α} {τ : List α} {C C' : Finset α} {m m' : Nat} (h : CacheRun n τ C m)
      (ha : CacheAccess n x C m C' m') : CacheRun n (x :: τ) C' m'

/-- A cache never holds more than `n` elements. -/
theorem CacheRun.card_le (h : CacheRun n τ C m) : C.card ≤ n := by
  cases h with
  | nil => exact Nat.zero_le n
  | cons _ ha => exact ha.card

/-! ## Phases -/

/-- The access begins no new phase. -/
def Continues (n : Nat) (P : Finset α) (x : α) : Prop :=
  x ∈ P ∨ P.card < n

instance (n : Nat) (P : Finset α) (x : α) : Decidable (Continues n P x) :=
  inferInstanceAs (Decidable (_ ∨ _))

/-- The elements that were accessed in the last phase. -/
def phase (n : Nat) : List α → Finset α
  | [] => ∅
  | x :: τ => if Continues n (phase n τ) x then insert x (phase n τ) else {x}

/-- The number of phases before the last one. -/
def phasesBefore (n : Nat) : List α → Nat
  | [] => 0
  | x :: τ => if Continues n (phase n τ) x then phasesBefore n τ else phasesBefore n τ + 1

/-- A phase has at most `n` different elements. -/
theorem card_phase_le (hn : 0 < n) (τ : List α) : (phase n τ).card ≤ n := by
  induction τ with
  | nil => exact Nat.zero_le n
  | cons x τ ih =>
    rw [phase]
    split
    case isTrue h =>
      rcases h with h | h
      · rwa [Finset.insert_eq_of_mem h]
      · exact (Finset.card_insert_le x _).trans h
    case isFalse => rw [Finset.card_singleton]; exact hn

/-- The last phase is a part of the history. -/
theorem exists_phase (n : Nat) (τ : List α) :
    ∃ ρ σ, τ = ρ ++ σ ∧ phase n τ = ρ.toFinset := by
  induction τ with
  | nil => exact ⟨[], [], rfl, rfl⟩
  | cons x τ ih =>
    obtain ⟨ρ, σ, hτ, hphase⟩ := ih
    rw [phase]
    split
    case isTrue => exact ⟨x :: ρ, σ, by rw [hτ]; rfl, by rw [hphase, List.toFinset_cons]⟩
    case isFalse => exact ⟨[x], τ, rfl, rfl⟩

/-- Less than `n` others were accessed since an element of the last phase was. -/
theorem reusedWithin_of_mem_phase (hn : 0 < n) (hx : x ∈ phase n τ) : ReusedWithin n τ x := by
  obtain ⟨ρ, σ, hτ, hphase⟩ := exists_phase n τ
  have hxρ : x ∈ ρ := List.mem_toFinset.1 (hphase ▸ hx)
  have hsub : (τ.takeWhile (· ≠ x)).toFinset ⊆ ρ.toFinset.erase x := by
    intro y hy
    rw [List.mem_toFinset] at hy
    have hyx : y ≠ x := by simpa using List.mem_takeWhile_imp hy
    refine Finset.mem_erase.2 ⟨hyx, List.mem_toFinset.2 ?_⟩
    rw [hτ, List.takeWhile_append] at hy
    split at hy
    case isTrue h =>
      -- the element itself ends what is taken
      have hall := List.takeWhile_eq_self_iff.1 ((List.takeWhile_sublist _).eq_of_length h) x hxρ
      simp at hall
    case isFalse => exact (List.takeWhile_sublist _).subset hy
  refine ⟨by rw [hτ]; exact List.mem_append_left σ hxρ, ?_⟩
  calc reuseDistance τ x
      ≤ (ρ.toFinset.erase x).card := Finset.card_le_card hsub
    _ < ρ.toFinset.card := Finset.card_erase_lt_of_mem (List.mem_toFinset.2 hxρ)
    _ ≤ n := hphase ▸ card_phase_le hn τ

/-! ## Misses -/

/-- The list misses an element once in a phase at most. -/
theorem length_missed_le (hn : 0 < n) (τ : List α) :
    (missed n τ).length ≤ n * phasesBefore n τ + (phase n τ).card := by
  induction τ with
  | nil => exact Nat.zero_le _
  | cons x τ ih =>
    have hcard := card_phase_le hn τ
    rw [missed, phase, phasesBefore]
    by_cases hmem : x ∈ phase n τ
    · rw [if_pos (reusedWithin_of_mem_phase hn hmem), if_pos (.inl hmem), if_pos (.inl hmem),
        Finset.insert_eq_of_mem hmem]
      exact ih
    · have hlen : (if ReusedWithin n τ x then missed n τ else x :: missed n τ).length ≤
          (missed n τ).length + 1 := by
        split
        · exact Nat.le_succ _
        · exact Nat.le_refl _
      by_cases hc : Continues n (phase n τ) x
      · rw [if_pos hc, if_pos hc, Finset.card_insert_of_notMem hmem]
        omega
      · have hfull : ¬ (phase n τ).card < n := (not_or.1 hc).2
        rw [if_neg hc, if_neg hc, Finset.card_singleton, Nat.mul_succ]
        omega

/-- A cache has missed once for every phase, and once more or it holds the last phase. -/
theorem CacheRun.phases (hn : 0 < n) (h : CacheRun n τ C m) (hτ : τ ≠ []) :
    phasesBefore n τ + 1 < m ∨ phasesBefore n τ + 1 ≤ m ∧ phase n τ ⊆ C := by
  -- on the run; a new phase begins only where the old one has filled the cache
  induction h with
  | nil => exact absurd rfl hτ
  | @cons x τ C C' m m' hrun ha ih =>
    by_cases hnil : τ = []
    · subst hnil
      cases hrun
      have hmiss := (ha.miss (Finset.notMem_empty x)).2
      right
      constructor
      · simp only [phasesBefore, phase, Continues, Finset.card_empty, hn, or_true, if_true]
        omega
      · simpa [phase, Continues, hn] using ha.mem
    · rw [phasesBefore, phase]
      have ih := ih hnil
      have hcard := hrun.card_le
      by_cases hx : x ∈ C
      · obtain ⟨rfl, rfl⟩ := ha.hit hx
        by_cases hc : Continues n (phase n τ) x
        · rw [if_pos hc, if_pos hc]
          exact ih.imp_right fun h => ⟨h.1, Finset.insert_subset hx h.2⟩
        · rw [if_neg hc, if_neg hc, Finset.singleton_subset_iff]
          obtain ⟨hnew, hfull⟩ := not_or.1 hc
          rcases ih with hlt | ⟨-, hsub⟩
          · exact .inr ⟨hlt, hx⟩
          · -- the cache holds the whole phase and so nothing else
            have heq := Finset.eq_of_subset_of_card_le hsub (hcard.trans (Nat.le_of_not_lt hfull))
            exact absurd (heq ▸ hx) hnew
      · -- a miss pays for the element
        have hm := (ha.miss hx).2
        by_cases hc : Continues n (phase n τ) x
        · rw [if_pos hc, if_pos hc]
          left
          omega
        · rw [if_neg hc, if_neg hc, Finset.singleton_subset_iff]
          exact .inr ⟨by omega, ha.mem⟩

/-- The list misses at most `n` times as often as any other cache with room for `n` elements. -/
theorem CacheRun.length_missed_le (hn : 0 < n) (h : CacheRun n τ C m) :
    (missed n τ).length ≤ n * m := by
  by_cases hτ : τ = []
  · subst hτ
    exact Nat.zero_le _
  · have hphases : phasesBefore n τ + 1 ≤ m := by
      rcases h.phases hn hτ with h | h
      · exact Nat.le_of_lt h
      · exact h.1
    calc (missed n τ).length
        ≤ n * phasesBefore n τ + (phase n τ).card := Foundations.length_missed_le hn τ
      _ ≤ n * phasesBefore n τ + n := Nat.add_le_add_left (card_phase_le hn τ) _
      _ = n * (phasesBefore n τ + 1) := (Nat.mul_succ n _).symm
      _ ≤ n * m := Nat.mul_le_mul_left n hphases

end EE516.Foundations
