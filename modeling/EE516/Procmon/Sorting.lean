import EE516.Procmon.Rows

/-!
# The sort and its criterion

`bubblesort` reads the variable `currentValue` at each comparison, and another process may write it
meanwhile. With one of the four criteria throughout the sort is right and stable. With whatever
values it only ever exchanges records, and its indices do not depend on them.
-/

set_option autoImplicit false

namespace EE516.Procmon

open EE516.Foundations

variable {c : Criterion} {values : Nat → Int} {x y : Mydata} {pre rest data : List Mydata}
variable {len n i k : Nat}

/-- The values of the `enum`. -/
def Criterion.value : Criterion → Int
  | .pid => 0
  | .virt => 1
  | .rss => 2
  | .io => 3

/-- The case of the `switch`; other values have none. -/
def Criterion.ofValue (v : Int) : Option Criterion :=
  [Criterion.pid, .virt, .rss, .io].find? fun c => c.value = v

/-- One round of the inner loop, for the value that is read there. -/
def compareWith (currentValue : Int) (data : List Mydata) (j : Nat) : Option (List Mydata) :=
  match Criterion.ofValue currentValue with
  | some c => compare c data j
  | none => some data

/-- The inner loop; `k` comparisons were made before. -/
def innerLoopWith (values : Nat → Int) :
    Nat → Nat → Nat → List Mydata → Option (List Mydata × Nat)
  | 0, _, k, data => some (data, k)
  | n + 1, j, k, data => do
    let data ← compareWith (values k) data j
    innerLoopWith values n (j + 1) (k + 1) data

/-- The outer loop. -/
def outerLoopWith (values : Nat → Int) (len : Nat) :
    Nat → Nat → Nat → List Mydata → Option (List Mydata)
  | 0, _, _, data => some data
  | n + 1, i, k, data => do
    let (data, k) ← innerLoopWith values (len - i - 1) 0 k data
    outerLoopWith values len n (i + 1) k data

/-- `bubblesort`, where `currentValue` is `values k` at the comparison number `k`. -/
def bubblesortWith (values : Nat → Int) (data : List Mydata) (len : Nat) : Option (List Mydata) :=
  outerLoopWith values len (len - 1) 0 0 data

/-! ## One criterion -/

/-- A criterion is read back from its number. -/
theorem ofValue_value (c : Criterion) : Criterion.ofValue c.value = some c := by
  cases c <;> rfl

theorem innerLoopWith_const (hv : ∀ k, values k = c.value) (n i k : Nat) (data : List Mydata) :
    innerLoopWith values n i k data = (innerLoop c n i data).map fun data => (data, k + n) := by
  induction n generalizing i k data with
  | zero => rfl
  | succ n ih =>
    have hcompare : compareWith (values k) data i = compare c data i := by
      rw [compareWith, hv, ofValue_value]
    rw [innerLoopWith, innerLoop, hcompare]
    cases compare c data i with
    | none => rfl
    | some data' =>
      simp only [Option.bind_eq_bind, Option.bind_some]
      rw [ih, Nat.add_assoc, Nat.add_comm 1]

/-- While the criterion stays, the loops are those of bubble sort. -/
theorem outerLoopWith_const (hv : ∀ k, values k = c.value) (n i k : Nat) (data : List Mydata) :
    outerLoopWith values len n i k data = outerLoop c len n i data := by
  induction n generalizing i k data with
  | zero => rfl
  | succ n ih =>
    rw [outerLoopWith, outerLoop, innerLoopWith_const hv]
    cases innerLoop c (len - i - 1) 0 data with
    | none => rfl
    | some data' => exact ih ..

/-- A value that does not change is a criterion for the whole sort. -/
theorem bubblesortWith_const (hv : ∀ k, values k = c.value) (data : List Mydata) (len : Nat) :
    bubblesortWith values data len = bubblesort c data len :=
  outerLoopWith_const hv ..

/-! ## Any values -/

/-- A round leaves the two records as they are or exchanges them. -/
theorem compareWith_append (v : Int) (x y : Mydata) :
    ∃ x' y', [x', y'].Perm [x, y] ∧ ∀ pre rest : List Mydata,
      compareWith v (pre ++ x :: y :: rest) pre.length = some (pre ++ x' :: y' :: rest) := by
  cases hc : Criterion.ofValue v with
  | none => exact ⟨x, y, .refl _, fun pre rest => by simp only [compareWith, hc]⟩
  | some c =>
    by_cases hlt : c.key y < c.key x
    · refine ⟨y, x, .swap x y [], fun pre rest => ?_⟩
      simp only [compareWith, hc, compare_append, if_pos hlt]
    · refine ⟨x, y, .refl _, fun pre rest => ?_⟩
      simp only [compareWith, hc, compare_append, if_neg hlt]

/-- The inner loop reorders the records that it meets, whatever is behind them. -/
theorem innerLoopWith_append (values : Nat → Int) (x : Mydata) (l pre : List Mydata) (k : Nat) :
    ∃ l' : List Mydata, l'.Perm (x :: l) ∧ ∀ rest,
      innerLoopWith values l.length pre.length k (pre ++ (x :: l ++ rest)) =
        some (pre ++ (l' ++ rest), k + l.length) := by
  induction l generalizing x pre k with
  | nil => exact ⟨[x], .refl _, fun rest => rfl⟩
  | cons y l ih =>
    obtain ⟨x', y', hperm, hcompare⟩ := compareWith_append (values k) x y
    -- the record that stands second now is compared next
    obtain ⟨l', hperm', hloop⟩ := ih y' (pre ++ [x']) (k + 1)
    refine ⟨x' :: l', (hperm'.cons x').trans (hperm.append_right l), fun rest => ?_⟩
    have hnext := hloop rest
    simp only [← List.append_cons, List.length_append, List.length_singleton,
      List.cons_append] at hnext
    rw [List.length_cons, innerLoopWith]
    simp only [List.cons_append, hcompare, Option.bind_eq_bind, Option.bind_some]
    rw [hnext, Nat.add_assoc, Nat.add_comm 1]

/-- The first records are reordered by an inner loop that stays among them. -/
theorem innerLoopWith_perm (values : Nat → Int) (front : List Mydata) (hn : n ≤ front.length - 1)
    (k : Nat) :
    ∃ front' : List Mydata, front'.Perm front ∧ ∀ rest,
      innerLoopWith values n 0 k (front ++ rest) = some (front' ++ rest, k + n) := by
  cases front with
  | nil =>
    obtain rfl : n = 0 := Nat.le_zero.1 hn
    exact ⟨[], .refl _, fun rest => rfl⟩
  | cons x l =>
    rw [List.length_cons, Nat.add_sub_cancel] at hn
    obtain ⟨l', hperm, hloop⟩ := innerLoopWith_append values x (l.take n) [] k
    rw [List.length_take, Nat.min_eq_left hn] at hloop
    refine ⟨l' ++ l.drop n, ?_, fun rest => ?_⟩
    · have hall := hperm.append_right (l.drop n)
      rwa [List.cons_append, List.take_append_drop] at hall
    · have hrest := hloop (l.drop n ++ rest)
      rw [List.cons_append, ← List.append_assoc (l.take n), List.take_append_drop] at hrest
      simpa using hrest

/-- The outer loop reorders the first `len` records, whatever is behind them. -/
theorem outerLoopWith_perm (values : Nat → Int) (front : List Mydata) (hlen : front.length = len)
    (n i k : Nat) :
    ∃ rows : List Mydata, rows.Perm front ∧ ∀ rest,
      outerLoopWith values len n i k (front ++ rest) = some (rows ++ rest) := by
  induction n generalizing front i k with
  | zero => exact ⟨front, .refl _, fun rest => rfl⟩
  | succ n ih =>
    obtain ⟨front', hperm, hinner⟩ :=
      @innerLoopWith_perm (len - i - 1) values front (by omega) k
    obtain ⟨rows, hperm', houter⟩ :=
      ih front' (hperm.length_eq.trans hlen) (i + 1) (k + (len - i - 1))
    refine ⟨rows, hperm'.trans hperm, fun rest => ?_⟩
    rw [outerLoopWith, hinner]
    exact houter rest

/-! ## The sort -/

/-- With one criterion throughout the first `len` records are sorted, equal ones in their old order.
With any values they are reordered, the others stay, and no index is `len` or more: the sort is the
same in an array that ends there. -/
theorem bubblesort_with_any_values (data : List Mydata) (len : Nat) (h : len ≤ data.length) :
    (∀ (c : Criterion) (values : Nat → Int), (∀ k, values k = c.value) →
      ∃ rows, bubblesortWith values data len = some (rows ++ data.drop len) ∧
        rows.Pairwise c.InOrder ∧ SameClasses c.key rows (data.take len)) ∧
    ∀ values : Nat → Int,
      ∃ rows : List Mydata, bubblesortWith values data len = some (rows ++ data.drop len) ∧
        rows.Perm (data.take len) ∧ bubblesortWith values (data.take len) len = some rows := by
  have hlen : (data.take len).length = len := by rw [List.length_take, Nat.min_eq_left h]
  constructor
  · intro c values hv
    have hfront : len = (data.take len).length + 0 := hlen.symm
    have hpasses : len - 1 = (data.take len).length - 1 := by rw [hlen]
    obtain ⟨rows, hrows, -, hclass, hsorted⟩ := outerLoop_append (data.drop len)
      (settled_nil c.key (data.take len)) hfront hpasses
    rw [List.nil_append, List.take_append_drop] at hrows
    rw [List.append_nil] at hclass
    refine ⟨rows, ?_, hsorted.imp fun hle => inOrder_iff.2 hle, hclass⟩
    rw [bubblesortWith_const hv]
    exact hrows
  · intro values
    obtain ⟨rows, hperm, hloop⟩ := outerLoopWith_perm values (data.take len) hlen (len - 1) 0 0
    have hall := hloop (data.drop len)
    have hself := hloop []
    rw [List.take_append_drop] at hall
    rw [List.append_nil, List.append_nil] at hself
    exact ⟨rows, hall, hperm, hself⟩

/-- Three records, of which the sort is to take two. -/
def threeRows : List Mydata :=
  [⟨5, "sh", 10, 3, 0, 0, 0⟩, ⟨4, "ls", 20, 3, 0, 0, 0⟩, ⟨1, "init", 30, 9, 0, 0, 0⟩]

/-- The first two records change places; the third one stays. -/
theorem bubblesort_with_any_values_two :
    ∃ rows, bubblesortWith (fun _ => 0) threeRows 2 = some (rows ++ threeRows.drop 2) ∧
      rows.Pairwise Criterion.pid.InOrder ∧
      SameClasses Criterion.pid.key rows (threeRows.take 2) :=
  (bubblesort_with_any_values threeRows 2 (by decide)).1 .pid (fun _ => 0) fun _ => rfl

end EE516.Procmon
