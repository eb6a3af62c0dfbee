import EE516.Foundations.BubbleSort
import EE516.Procmon.Show
import Mathlib.Data.Int.Order.Basic

/-!
# The rows of the process monitor

The fill loop follows the list of processes, the array has a fixed size. Up to that size each
process has its row, in the order of the criterion; a longer list is written behind the array. A
loop works on `pre ++ rest` at the index `pre.length`.
-/

set_option autoImplicit false

namespace EE516.Procmon

open EE516.Foundations

variable {c : Criterion} {front suffix : List Mydata} {x y : Mydata} {processes : List TaskStruct}

/-! ## The criterion -/

/-- What the criterion sorts by, so that smaller keys come first. -/
def Criterion.key : Criterion → Mydata → Int
  | .pid, a => a.pid.toInt
  | .virt, a => -a.virt.toInt
  | .rss, a => -a.rss.toInt
  | .io, a => -a.totalio.toInt

/-- The order of two rows, one above the other: ascending by pid, descending otherwise. -/
def Criterion.InOrder : Criterion → Mydata → Mydata → Prop
  | .pid, a, b => a.pid ≤ b.pid
  | .virt, a, b => b.virt ≤ a.virt
  | .rss, a, b => b.rss ≤ a.rss
  | .io, a, b => b.totalio ≤ a.totalio

/-- Two rows are exchanged exactly if the second key is the smaller one. -/
theorem wrong_iff : c.wrong x y = true ↔ c.key y < c.key x := by
  cases c with
  | pid =>
    simp only [Criterion.wrong, Criterion.key, gt_iff_lt, decide_eq_true_eq,
      Int32.lt_iff_toInt_lt]
  | virt | rss | io =>
    simp only [Criterion.wrong, Criterion.key, decide_eq_true_eq, Int64.lt_iff_toInt_lt]
    omega

theorem inOrder_iff : c.InOrder x y ↔ c.key x ≤ c.key y := by
  cases c with
  | pid => simp only [Criterion.InOrder, Criterion.key, Int32.le_iff_toInt_le]
  | virt | rss | io =>
    simp only [Criterion.InOrder, Criterion.key, Int64.le_iff_toInt_le]
    omega

/-! ## The loops -/

section Loops

variable (pre rest : List Mydata)

theorem put_append : put (pre ++ x :: rest) pre.length y = some (pre ++ y :: rest) := by
  rw [put, if_pos (by simp)]
  simp

/-- The processes of a list that fits get their rows. -/
theorem fill_of_le (h : processes.length ≤ rest.length) :
    fill processes (pre ++ rest) pre.length =
      some (pre ++ processes.map rowOf ++ rest.drop processes.length,
        pre.length + processes.length) := by
  induction processes generalizing pre rest with
  | nil => simp [fill]
  | cons p ps ih =>
    cases rest with
    | nil => cases h
    | cons x rest =>
      have hnext := ih (pre ++ [rowOf p]) rest (Nat.le_of_succ_le_succ h)
      simp only [← List.append_cons, List.length_append, List.length_singleton] at hnext
      simp only [fill, put_append, Option.bind_eq_bind, Option.bind_some]
      rw [hnext, List.length_cons, List.drop_succ_cons, List.map_cons, Nat.add_assoc,
        Nat.add_comm 1]

/-- A list that does not fit is written behind the array. -/
theorem fill_of_lt {dataset : List Mydata} {k : Nat} (hk : k ≤ dataset.length)
    (h : dataset.length < k + processes.length) : fill processes dataset k = none := by
  induction processes generalizing dataset k with
  | nil =>
    rw [List.length_nil] at h
    omega
  | cons p ps ih =>
    rw [List.length_cons] at h
    by_cases hlt : k < dataset.length
    · simp only [fill, put, if_pos hlt, Option.bind_eq_bind, Option.bind_some]
      exact ih (by rw [List.length_set]; omega) (by rw [List.length_set]; omega)
    · simp only [fill, put, if_neg hlt, Option.bind_eq_bind, Option.bind_none]

/-- A comparison of two neighbours leaves them in their order. -/
theorem compare_append :
    compare c (pre ++ x :: y :: rest) pre.length =
      some (pre ++ if c.key y < c.key x then y :: x :: rest else x :: y :: rest) := by
  have hx : (pre ++ x :: y :: rest)[pre.length]? = some x := by simp
  have hy : (pre ++ x :: y :: rest)[pre.length + 1]? = some y := by simp
  rw [compare, hx, hy]
  simp only [Option.bind_eq_bind, Option.bind_some, wrong_iff]
  split
  · have hput := @put_append y x (pre ++ [y]) rest
    simp only [← List.append_cons, List.length_append, List.length_singleton] at hput
    rw [put_append, Option.bind_some, hput]
  · rfl

/-- The inner loop is a pass. -/
theorem innerLoop_append (x : Mydata) (l : List Mydata) :
    innerLoop c l.length pre.length (pre ++ (x :: l ++ rest)) =
      some (pre ++ (carry c.key x l ++ rest)) := by
  induction l generalizing pre x with
  | nil => rfl
  | cons y l ih =>
    simp only [List.length_cons, innerLoop, List.cons_append, compare_append, Option.bind_eq_bind,
      Option.bind_some, carry]
    -- the larger of the two entries is carried on to the next round
    split
    · have hnext := ih (pre ++ [y]) x
      simpa only [← List.append_cons, List.length_append, List.length_singleton,
        List.cons_append] using hnext
    · have hnext := ih (pre ++ [x]) y
      simpa only [← List.append_cons, List.length_append, List.length_singleton,
        List.cons_append] using hnext

/-- The outer loop sorts what is not settled. -/
theorem outerLoop_append {len i n : Nat} (h : Settled c.key front suffix)
    (hlen : len = front.length + i) (hn : n = front.length - 1) :
    ∃ rows, outerLoop c len n i (front ++ (suffix ++ rest)) = some (rows ++ rest) ∧
      rows.Perm (front ++ suffix) ∧ SameClasses c.key rows (front ++ suffix) ∧
      rows.Pairwise fun a b => c.key a ≤ c.key b := by
  -- on the passes that are left; each carries the greatest row behind the others
  induction n generalizing front suffix i with
  | zero =>
    refine ⟨front ++ suffix, ?_, .refl _, .refl _ _, h.pairwise (by omega)⟩
    rw [outerLoop, List.append_assoc]
  | succ n ih =>
    cases front with
    | nil => cases hn
    | cons x l =>
      rw [List.length_cons] at hlen hn
      obtain ⟨front', m, hcarry, hsettled⟩ := h.carry
      have hlength := length_carry c.key x l
      rw [hcarry, List.length_append, List.length_singleton] at hlength
      have hpass : innerLoop c (len - i - 1) 0 (x :: l ++ (suffix ++ rest)) =
          some (front' ++ (m :: suffix ++ rest)) := by
        have hinner := @innerLoop_append c [] (suffix ++ rest) x l
        rw [hcarry] at hinner
        simpa only [show len - i - 1 = l.length by omega, List.nil_append, List.length_nil,
          List.append_assoc, List.singleton_append, List.cons_append] using hinner
      obtain ⟨rows, hrows, hperm, hclass, hsorted⟩ :=
        ih hsettled (i := i + 1) (by omega) (by omega)
      refine ⟨rows, ?_, hperm.trans ?_, hclass.trans ?_, hsorted⟩
      · rw [outerLoop, hpass]
        exact hrows
      · have hsame := carry_perm c.key x l
        rw [hcarry] at hsame
        rw [List.append_cons]
        exact hsame.append_right suffix
      · have hsame := sameClasses_carry c.key x l
        rw [hcarry] at hsame
        rw [List.append_cons]
        exact hsame.append suffix

/-- The loop prints the rows from its index on. -/
theorem printLoop_append (rows : List Mydata) :
    printLoop (pre ++ (rows ++ rest)) rows.length pre.length = some rows := by
  induction rows generalizing pre with
  | nil => rfl
  | cons x rows ih =>
    have hnext := ih (pre ++ [x])
    simp only [← List.append_cons, List.length_append, List.length_singleton] at hnext
    have hx : (pre ++ (x :: rows ++ rest))[pre.length]? = some x := by simp
    rw [List.length_cons, printLoop, hx]
    simp only [Option.bind_eq_bind, Option.bind_some, List.cons_append, hnext]

end Loops

/-! ## The table -/

/-- No access is behind the array, and the rows are those of the processes, each once, in the order
of the criterion. -/
def ShowsTable (c : Criterion) (processes : List TaskStruct) : Prop :=
  ∃ rows, procmon_proc_show c processes = some rows ∧ rows.Perm (processes.map rowOf) ∧
    rows.Pairwise c.InOrder

/-- Up to the size of the table all processes are shown. -/
theorem shows_of_le (h : processes.length ≤ MAX_PROCESS_COUNT) : ShowsTable c processes := by
  have hfill := @fill_of_le processes [] (List.replicate MAX_PROCESS_COUNT ⟨0, "", 0, 0, 0, 0, 0⟩)
    (by rwa [List.length_replicate])
  simp only [List.nil_append, List.length_nil, Nat.zero_add] at hfill
  obtain ⟨rows, hrows, hperm, -, hsorted⟩ := outerLoop_append
    ((List.replicate MAX_PROCESS_COUNT ⟨0, "", 0, 0, 0, 0, 0⟩).drop processes.length)
    (settled_nil c.key (processes.map rowOf)) (i := 0) rfl rfl
  simp only [List.append_nil, List.nil_append, List.length_map, Nat.add_zero] at hrows hperm
  have hlength : rows.length = processes.length := by rw [hperm.length_eq, List.length_map]
  have hprint := printLoop_append []
    ((List.replicate MAX_PROCESS_COUNT ⟨0, "", 0, 0, 0, 0, 0⟩).drop processes.length) rows
  rw [hlength] at hprint
  refine ⟨rows, ?_, hperm, hsorted.imp fun hle => inOrder_iff.2 hle⟩
  simp only [procmon_proc_show, hfill, Option.bind_eq_bind, Option.bind_some, bubblesort, hrows]
  exact hprint

/-- With more processes the rows are written behind the array. -/
theorem not_shows_of_lt (h : MAX_PROCESS_COUNT < processes.length) : ¬ ShowsTable c processes := by
  rintro ⟨rows, hshow, -, -⟩
  have hfill : fill processes (List.replicate MAX_PROCESS_COUNT ⟨0, "", 0, 0, 0, 0, 0⟩) 0 = none :=
    fill_of_lt (Nat.zero_le _) (by rwa [List.length_replicate, Nat.zero_add])
  simp only [procmon_proc_show, hfill, Option.bind_eq_bind, Option.bind_none] at hshow
  cases hshow

/-- The table is shown exactly for the lists that fit in the array. -/
theorem shows_table_iff (c : Criterion) (processes : List TaskStruct) :
    ShowsTable c processes ↔ processes.length ≤ MAX_PROCESS_COUNT := by
  constructor
  · intro hshows
    by_contra hlong
    exact not_shows_of_lt (Nat.lt_of_not_le hlong) hshows
  · intro hle
    exact shows_of_le hle

/-- One process more than the array has entries. -/
theorem table_overrun :
    ¬ ∀ (c : Criterion) (processes : List TaskStruct), ShowsTable c processes := by
  intro h
  refine not_shows_of_lt ?_ (h .pid (List.replicate 2049 ⟨1, "sh", none, ⟨0, 0⟩, [⟨0, 0⟩]⟩))
  rw [List.length_replicate]
  exact Nat.lt_succ_self _

end EE516.Procmon
