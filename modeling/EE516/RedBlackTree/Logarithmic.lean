import EE516.RedBlackTree.Drain
import EE516.RedBlackTree.Topmost

/-!
# The cost of insertions and searches

The loops of the program are bounded by fuel, one unit for each node that a loop visits. A
red-black tree of `n` entries is at most `2 * log2 (n + 1)` high, and so this many units and one
more are enough for each loop of a run of insertions that keeps `root` on top, and for every search
in the tree afterwards.
-/

set_option autoImplicit false

namespace EE516.RedBlackTree

open EE516.Foundations.ColorTree

variable {s : Memory} {l : List (Int × Int)} {fuel : Nat}

/-- A search from `root` goes down to a nil node, unless it meets the value. -/
theorem Inserted.findPosition (h : Inserted s l) (hne : l ≠ []) (hfuel : Outlasts fuel l.length)
    (v : Int) :
    ∃ r, findPosition fuel s.root NULL v s = .ok (r, s) ∧ (r = none ↔ v ∈ l.map Prod.fst) := by
  cases l with
  | nil => exact absurd rfl hne
  | cons p l =>
    obtain ⟨-, t, hb, hperm, -⟩ := h
    obtain ⟨n, hbal⟩ := hb.bal
    have hheight : t.height < fuel := hfuel t n hbal (by simpa [pairs] using hperm.length_eq)
    have hrun := findPosition_run v [] NULL hb.rep hheight fun _ => rfl
    refine ⟨_, by rw [hb.root, hrun], ?_⟩
    rw [Option.map_eq_none_iff, ← (hperm.map Prod.fst).mem_iff, mem_pairs_fst]
    exact ⟨mem_of_pathTo_eq_none Entry.value, pathTo_eq_none hb.ordered⟩

/-- In a run of insertions of distinct values of which none rotates at the node that `root` names,
no loop visits more than `2 * log2 (n + 1) + 1` nodes, and neither does a search for any value
afterwards, which finds the values that were inserted and no others. -/
theorem insertAll_logarithmic (hd : (l.map Prod.fst).Nodup)
    (hfuel : 2 * Nat.log 2 (l.length + 1) < fuel)
    (hrot : ∀ k (hk : k < l.length) s, insertAll fuel (l.take k) Memory.init = .ok ((), s) →
      ¬ RotatesRoot s l[k].1) :
    ∃ s, insertAll fuel l Memory.init = .ok ((), s) ∧ RedBlackFromRoot s l ∧
      (l ≠ [] → ∀ v, ∃ r, findPosition fuel s.root NULL v s = .ok (r, s) ∧
        (r = none ↔ v ∈ l.map Prod.fst)) := by
  have hout : ∀ k ≤ l.length, Outlasts fuel k := by
    intro k hk
    refine outlasts_of_log (lt_of_le_of_lt ?_ hfuel)
    exact Nat.mul_le_mul_left 2 (Nat.log_mono_right (Nat.succ_le_succ hk))
  obtain ⟨s, hrun, hins⟩ := inserted_of_outlasts hd hout l.length (Nat.le_refl _)
    fun k _ hk => hrot k hk
  rw [List.take_length] at hrun hins
  exact ⟨s, hrun, hins.redBlackFromRoot, fun hne => hins.findPosition hne (hout _ (Nat.le_refl _))⟩

/-- Seven units are enough for the nine values of `main`. -/
theorem insertAll_logarithmic_vrt :
    ∃ s, insertAll 7 vrt Memory.init = .ok ((), s) ∧ RedBlackFromRoot s vrt ∧
      (vrt ≠ [] → ∀ v, ∃ r, findPosition 7 s.root NULL v s = .ok (r, s) ∧
        (r = none ↔ v ∈ vrt.map Prod.fst)) := by
  refine insertAll_logarithmic (by decide) (by decide) fun k hk s hs => ?_
  have h : ∀ j : Fin 9, holdsAfter (insertAll 7 (vrt.take j))
      (fun s => keepsRoot 7 s vrt[(j : Nat)].1) = true := by
    decide +kernel
  exact not_rotatesRoot (holdsAfter_run (h ⟨k, hk⟩) hs)

end EE516.RedBlackTree
