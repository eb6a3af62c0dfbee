import EE516.Foundations.Run
import Mathlib.Logic.Function.Basic

/-!
# Random access in `fs_bench.c`

The functions `file_write_random` and `file_read_random` are one program with two system calls. A
step runs to the next loop test or to the next call whose result decides something; the result is
the answer of the environment: the draws of `rand`, and the results of `memalign`, `open`, `write`
and `read`. The part of a loop body without a branch, from `*(parr+seekpoint) = 1` to `count--`, is
one step. The printing, the name of the file and the content of the buffer are left out; `malloc`
succeeds, as the program takes for granted, and its memory has any content.
-/

set_option autoImplicit false

namespace EE516.FsBench

/-- The number of files. -/
def NUMFILES : Nat := 1

/-- The bytes of each file. -/
def FILESIZE : Nat := 10 * 1024 * 1024

/-- The greatest result of `rand`. -/
def RAND_MAX : Nat := 2147483647

/-- The largest `int`. -/
def INT_MAX : Nat := 2147483647

/-- The flags of `open`. -/
inductive OpenMode where
  | O_WRONLY
  | O_RDONLY
  deriving DecidableEq, Repr

/-- The place of the program. -/
inductive Point where
  /-- `memalign`, and the check of `buf` -/
  | memalign
  /-- the test of the loop over the files -/
  | files
  /-- `open`, the check of `fd`, and the declarations up to `malloc` -/
  | openFile
  /-- the test of the loop that clears `parr`, with its body -/
  | fill (j : Nat)
  /-- `while(count > 0)` -/
  | outer
  /-- `int seekpoint = rand()%modulus` -/
  | draw
  /-- `while(*(parr+seekpoint))` -/
  | inner
  /-- `seekpoint = rand()%modulus` in the inner loop -/
  | redraw
  /-- from `*(parr+seekpoint) = 1` to `count--` -/
  | body
  | returned
  /-- after `exit(1)`, with the text that was printed -/
  | exited (text : String)
  deriving DecidableEq, Repr

/-- The variables of the function. -/
structure Bench where
  point : Point
  i : Nat
  count : Nat
  modulus : Nat
  parr : Nat → Int
  seekpoint : Nat

/-- The call of the function; `mem` is the content of the memory that `malloc` will give. -/
def start (mem : Nat → Int) : Bench where
  point := .memalign
  i := 0
  count := 0
  modulus := 0
  parr := mem
  seekpoint := 0

/-- What the environment answers in a step. -/
inductive Answer where
  /-- nothing was asked -/
  | go
  | memalign (ok : Bool)
  | opened (fd : Int)
  | rand (r : Nat)
  | transferred (act_size : Int)
  deriving DecidableEq, Repr

/-- What a step did: opened a file, used a cell of `parr`, drew a number, or used a block. -/
inductive Event where
  | other
  | openFile (mode : OpenMode)
  | parr (j : Nat)
  | rand (r : Nat)
  /-- marked the cell `seekpoint` of `parr`, and transferred `size` bytes from `offset` on -/
  | transfer (seekpoint offset size : Nat)
  deriving DecidableEq, Repr

/-- A step of a function that opens its file with `mode`, and whose system call has the name
`call`; no step when the answer does not fit. -/
def random (mode : OpenMode) (call : String) (req_size : Nat) (s : Bench) (a : Answer) :
    Option (Event × Bench) :=
  match s.point, a with
  | .memalign, .memalign ok =>
    if ok then some (.other, { s with point := .files, i := 0 })
    else some (.other, { s with point := .exited "ERROR: Failed to allocate buffer" })
  | .files, .go =>
    if s.i < NUMFILES then some (.other, { s with point := .openFile })
    else some (.other, { s with point := .returned })
  | .openFile, .opened fd =>
    if fd = -1 then some (.openFile mode, { s with point := .exited "open" })
    -- the division by 0 ends the process
    else if req_size = 0 then none
    else some (.openFile mode, { s with
      point := .fill 0, count := FILESIZE / req_size, modulus := FILESIZE / req_size })
  | .fill j, .go =>
    if j < s.modulus then
      some (.parr j, { s with point := .fill (j + 1), parr := Function.update s.parr j 0 })
    else some (.other, { s with point := .outer })
  | .outer, .go =>
    if 0 < s.count then some (.other, { s with point := .draw })
    else some (.other, { s with point := .files, i := s.i + 1 })
  | .draw, .rand r =>
    if r ≤ RAND_MAX then some (.rand r, { s with point := .inner, seekpoint := r % s.modulus })
    else none
  | .inner, .go =>
    if s.parr s.seekpoint ≠ 0 then some (.parr s.seekpoint, { s with point := .redraw })
    else some (.parr s.seekpoint, { s with point := .body })
  | .redraw, .rand r =>
    if r ≤ RAND_MAX then some (.rand r, { s with point := .inner, seekpoint := r % s.modulus })
    else none
  | .body, .transferred act_size =>
    let s' := { s with parr := Function.update s.parr s.seekpoint 1 }
    let e := Event.transfer s.seekpoint (req_size * s.seekpoint) req_size
    if act_size = -1 then some (e, { s' with point := .exited call })
    else some (e, { s' with point := .outer, count := s.count - 1 })
  | _, _ => none

/-- The benchmark that writes every record of the file, in a random order. -/
def file_write_random : Nat → Bench → Answer → Option (Event × Bench) := random .O_WRONLY "write"

/-- The benchmark that reads every record of the file, in a random order. -/
def file_read_random : Nat → Bench → Answer → Option (Event × Bench) := random .O_RDONLY "read"

/-- The index of a cell of `parr` that the step used. -/
def Event.index : Event → Option Nat
  | .parr j => some j
  | .transfer seekpoint _ _ => some seekpoint
  | _ => none

/-- The block that the step used. -/
def Event.block : Event → Option Nat
  | .transfer seekpoint _ _ => some seekpoint
  | _ => none

/-- The seekpoints that a run used, the last one first. -/
def seekpoints (τ : List Event) : List Nat :=
  τ.filterMap Event.block

/-- In the loop `while(count > 0)`. -/
def Point.InLoop : Point → Prop
  | .outer | .draw | .inner | .redraw | .body => True
  | _ => False

end EE516.FsBench
