import Mathlib.Data.List.Basic

/-!
# The process monitor

The function `procmon_proc_show` of `project2/procmon.c` with `bubblesort`. The kernel's list of
processes is its input, with the fields that the function reads. The array `dataset` has
`MAX_PROCESS_COUNT` entries; the model fails (`none`) where the code would access another one, which
the code does not check. `kzalloc` succeeds. A row that is printed is given by its fields.
-/

set_option autoImplicit false

namespace EE516.Procmon

/-- The size of the array of the processes. -/
def MAX_PROCESS_COUNT : Nat := 2048

/-- The sorting criterion, `currentValue`. -/
inductive Criterion where
  | pid
  | virt
  | rss
  | io
  deriving DecidableEq, Repr

/-- `struct mydata`. -/
structure Mydata where
  pid : Int32
  name : String
  virt : Int64
  rss : Int64
  diskread : Int64
  diskwrite : Int64
  totalio : Int64
  deriving DecidableEq, Repr

/-! ## The kernel's data -/

/-- The bytes of a page. -/
def PAGE_SIZE : UInt64 := 4096

/-- The fields of `struct task_io_accounting` that are read. -/
structure TaskIoAccounting where
  read_bytes : UInt64
  write_bytes : UInt64

/-- The fields of `struct mm_struct` that are read. -/
structure MmStruct where
  total_vm : UInt64
  filepages : Int64
  anonpages : Int64

/-- The fields of `struct task_struct` that are read; `threads` are the accounts of the threads. -/
structure TaskStruct where
  pid : Int32
  comm : String
  active_mm : Option MmStruct
  signal : TaskIoAccounting
  threads : List TaskIoAccounting

/-- The function of the kernel that sets the counters to zero; it is given here, since the
repository only calls it. -/
def task_io_accounting_init : TaskIoAccounting := ⟨0, 0⟩

/-- The function of the kernel that adds the counters up; it is given here, since the repository
only calls it. -/
def task_io_accounting_add (dst src : TaskIoAccounting) : TaskIoAccounting :=
  ⟨dst.read_bytes + src.read_bytes, dst.write_bytes + src.write_bytes⟩

/-! ## The table -/

/-- The size of the address space in KB. -/
def virtOf (amm : MmStruct) : Int64 :=
  if amm.total_vm ≠ 0 then (amm.total_vm * PAGE_SIZE / 1024).toInt64 else 0

/-- The resident pages in KB; negative counters are ignored. -/
def rssOf (amm : MmStruct) : Int64 :=
  let rss := 0
  let rss := if amm.filepages < 0 then rss else rss + amm.filepages
  let rss := if amm.anonpages < 0 then rss else rss + amm.anonpages
  rss * (PAGE_SIZE / 1024).toInt64

/-- The row of a process. -/
def rowOf (p : TaskStruct) : Mydata :=
  let target_io := p.threads.foldl task_io_accounting_add
    (task_io_accounting_add task_io_accounting_init p.signal)
  let diskread := (target_io.read_bytes / 1024).toInt64
  let diskwrite := (target_io.write_bytes / 1024).toInt64
  { pid := p.pid
    name := p.comm
    virt := p.active_mm.elim 0 virtOf
    rss := p.active_mm.elim 0 rssOf
    diskread := diskread
    diskwrite := diskwrite
    totalio := diskread + diskwrite }

/-- An assignment to an entry of the array. -/
def put (data : List Mydata) (i : Nat) (row : Mydata) : Option (List Mydata) :=
  if i < data.length then some (data.set i row) else none

/-- The loop `for_each_process`. -/
def fill : List TaskStruct → List Mydata → Nat → Option (List Mydata × Nat)
  | [], dataset, processCount => some (dataset, processCount)
  | p :: ps, dataset, processCount => do
    let dataset ← put dataset processCount (rowOf p)
    fill ps dataset (processCount + 1)

/-- The two neighbours are in the wrong order. -/
def Criterion.wrong : Criterion → Mydata → Mydata → Bool
  | .pid, a, b => a.pid > b.pid
  -- ascending by process, descending by everything else
  | .virt, a, b => a.virt < b.virt
  | .rss, a, b => a.rss < b.rss
  | .io, a, b => a.totalio < b.totalio

/-- One round of the inner loop of `bubblesort`. -/
def compare (currentValue : Criterion) (data : List Mydata) (j : Nat) : Option (List Mydata) := do
  let a ← data[j]?
  let b ← data[j + 1]?
  if currentValue.wrong a b then do
    let data ← put data j b
    put data (j + 1) a
  else some data

/-- The inner loop, with the number of its rounds. -/
def innerLoop (currentValue : Criterion) : Nat → Nat → List Mydata → Option (List Mydata)
  | 0, _, data => some data
  | n + 1, j, data => do
    let data ← compare currentValue data j
    innerLoop currentValue n (j + 1) data

/-- The outer loop, with the number of its rounds. -/
def outerLoop (currentValue : Criterion) (len : Nat) :
    Nat → Nat → List Mydata → Option (List Mydata)
  | 0, _, data => some data
  | n + 1, i, data => do
    let data ← innerLoop currentValue (len - i - 1) 0 data
    outerLoop currentValue len n (i + 1) data

/-- The sort of the array by the criterion that is selected. -/
def bubblesort (currentValue : Criterion) (data : List Mydata) (len : Nat) :
    Option (List Mydata) :=
  outerLoop currentValue len (len - 1) 0 data

/-- The print loop, with the number of its rounds. -/
def printLoop (dataset : List Mydata) : Nat → Nat → Option (List Mydata)
  | 0, _ => some []
  | n + 1, i => do
    let row ← dataset[i]?
    let rows ← printLoop dataset n (i + 1)
    some (row :: rows)

/-- The rows that are printed under the heading. -/
def procmon_proc_show (currentValue : Criterion) (processes : List TaskStruct) :
    Option (List Mydata) := do
  let dataset := List.replicate MAX_PROCESS_COUNT ⟨0, "", 0, 0, 0, 0, 0⟩
  let (dataset, processCount) ← fill processes dataset 0
  let dataset ← bubblesort currentValue dataset processCount
  printLoop dataset processCount 0

end EE516.Procmon
