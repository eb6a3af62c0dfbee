import EE516.Foundations.Chain
import EE516.Foundations.Run
import Mathlib.Algebra.Group.Nat.Defs
import Mathlib.Algebra.Group.Int.Defs

/-!
# The linked list driver

The character device of `project5/task1/linkedlist_skel.c`. Its singly linked list lives in a heap
of cells; a function fails (`none`) where the code would follow a null pointer, touch memory that is
not allocated, or divide by zero. `kzalloc` succeeds at an address that the caller of the model
gives, with a cell that is not in use. The lists are shorter than 2^31, so the `int` loop counters
do not overflow; a loop is the recursion on the number of its rounds. The semaphore `sem` makes each
call one step, and the printing is left out.
-/

set_option autoImplicit false

namespace EE516.LinkedList

open EE516.Foundations

/-- An address of a node. -/
abbrev Addr := Nat

/-- A pointer to a node; `none` is `NULL`. -/
abbrev Ptr := Option Addr

/-- The nodes, `struct sll`. -/
abbrev Sll := Cell Addr Int

/-- The global variables and the allocated nodes. -/
structure State where
  head : Ptr
  size : Nat
  heap : Cells Addr Int

/-- The number of values of an `unsigned int`. -/
def UINT_RANGE : Nat := 2 ^ 32

/-- The list after `dummy_init`. -/
def start : State := ⟨none, 0, fun _ => none⟩

/-! ## Memory -/

/-- The node that a pointer leads to. -/
def load (heap : Cells Addr Int) (p : Ptr) : Option Sll := p.bind heap

/-- An assignment to a field of the node that `p` points to. -/
def store (heap : Cells Addr Int) (p : Ptr) (f : Sll → Sll) : Option (Cells Addr Int) := do
  let a ← p
  let node ← heap a
  some (Function.update heap a (some (f node)))

/-- A zeroed node at an address that is not in use; the allocation does not fail. -/
def kzalloc (heap : Cells Addr Int) (addr : Addr) : Option (Cells Addr Int) :=
  match heap addr with
  | some _ => none
  | none => some (Function.update heap addr (some ⟨none, 0⟩))

/-- Frees a node that is in use. -/
def kfree (heap : Cells Addr Int) : Ptr → Option (Cells Addr Int)
  | none => some heap
  | some a => do
    let _ ← heap a
    some (Function.update heap a none)

/-- The remainder of a division, which fails for the divisor 0. -/
def modulo (a b : Nat) : Option Nat := if b = 0 then none else some (a % b)

/-! ## The list -/

/-- The loop `while(pos--)`. -/
def moveAhead (heap : Cells Addr Int) : Nat → Ptr → Option Ptr
  | 0, cur => some cur
  | pos + 1, cur => do
    let node ← load heap cur
    moveAhead heap pos node.next

/-- `random` is what `get_random_bytes` draws, and `addr` what `kzalloc` returns, which is not
`NULL`. -/
def allocLinkedListRandomly (s : State) (v : Int) (random : UInt32) (addr : Addr) :
    Option State :=
  match s.head with
  | none => do
    let heap ← kzalloc s.heap addr
    let heap ← store heap (some addr) fun node => { node with v := v }
    some ⟨some addr, (s.size + 1) % UINT_RANGE, heap⟩
  | some head => do
    let pos ← modulo random.toNat s.size
    let cur ← moveAhead s.heap pos (some head)
    -- the new node comes behind `cur`
    let temp := (← load s.heap cur).next
    let heap ← kzalloc s.heap addr
    let heap ← store heap cur fun node => { node with next := some addr }
    let heap ← store heap (← load heap cur).next fun node => { node with v := v }
    let heap ← store heap (← load heap cur).next fun node => { node with next := temp }
    some ⟨some head, (s.size + 1) % UINT_RANGE, heap⟩

/-- The loop that looks for the node before the first node with `v`: `cur`, and `matched`. -/
def search (heap : Cells Addr Int) (v : Int) : Nat → Ptr → Option (Ptr × Bool)
  | 0, cur => some (cur, false)
  | n + 1, cur => do
    let node ← load heap cur
    -- one node ahead, so that the match can be taken out
    let next ← load heap node.next
    if next.v = v then some (cur, true) else search heap v n node.next

/-- The first node with the value `v` is taken out and freed; the result is `v`, or -1 if no node
has it. -/
def getFirstMatchedSllNodeWithDeleteOperation (s : State) (v : Int) : Option (Int × State) :=
  if 0 < s.size then do
    let first ← load s.heap s.head
    if first.v = v then do
      -- special case, head node is matched
      let heap ← kfree s.heap s.head
      some (v, ⟨first.next, (s.size + UINT_RANGE - 1) % UINT_RANGE, heap⟩)
    else do
      let (cur, matched) ← search s.heap v ((s.size + UINT_RANGE - 1) % UINT_RANGE) s.head
      if matched then do
        let temp := (← load s.heap cur).next
        let target ← load s.heap temp
        let heap ← store s.heap cur fun node => { node with next := target.next }
        let heap ← kfree heap temp
        some (v, ⟨s.head, (s.size + UINT_RANGE - 1) % UINT_RANGE, heap⟩)
      else some (-1, s)
  else some (-1, s)

/-- The loop of `releaseSll`. -/
def releaseNodes : Nat → Cells Addr Int → Ptr → Option (Cells Addr Int)
  | 0, heap, _ => some heap
  | n + 1, heap, curptr => do
    let nextptr := (← load heap curptr).next
    let heap ← kfree heap curptr
    releaseNodes n heap nextptr

/-- All nodes are freed. -/
def releaseSll (s : State) : Option State := do
  let heap ← releaseNodes s.size s.heap s.head
  some ⟨none, 0, heap⟩

/-! ## The file operations -/

/-- What a call returns, and what it writes to `buffer[1]`. -/
structure Reply where
  ret : Int
  buffer1 : Option Int8
  deriving DecidableEq

/-- A read asks for the value in the first byte of the buffer; the answer goes into the second. -/
def dummy_read (s : State) (buffer0 : Int8) (length : Nat) : Option (Reply × State) :=
  if 1 < length then do
    let (ret, s') ← getFirstMatchedSllNodeWithDeleteOperation s buffer0.toInt
    some (⟨ret, some (Int8.ofInt ret)⟩, s')
  else some (⟨-1, none⟩, s)

/-- A write puts a digit at a random place of the list. -/
def dummy_write (s : State) (buffer0 : Int8) (length : Nat) (random : UInt32) (addr : Addr) :
    Option (Reply × State) :=
  if 0 < length then
    if 0 ≤ buffer0.toInt ∧ buffer0.toInt ≤ 9 then do
      let s' ← allocLinkedListRandomly s buffer0.toInt random addr
      some (⟨1, none⟩, s')
    else some (⟨-1, none⟩, s)
  else some (⟨-1, none⟩, s)

/-- The close of the device frees the list. -/
def dummy_release (s : State) : Option (Reply × State) := do
  let s' ← releaseSll s
  some (⟨0, none⟩, s')

/-- A call of the driver, with its arguments and what its environment brings. -/
inductive Call where
  | read (buffer0 : Int8) (length : Nat)
  | write (buffer0 : Int8) (length : Nat) (random : UInt32) (addr : Addr)
  | release
  deriving DecidableEq

/-- What a call returns, and the state behind it. -/
def Call.run (s : State) : Call → Option (Reply × State)
  | .read buffer0 length => dummy_read s buffer0 length
  | .write buffer0 length random addr => dummy_write s buffer0 length random addr
  | .release => dummy_release s

/-- A call and what it replied. -/
structure Event where
  call : Call
  reply : Reply

/-- A call is one step; one that follows a pointer to nothing is refused. -/
def step (s : State) (c : Call) : Option (Event × State) :=
  (c.run s).map fun r => (⟨c, r.1⟩, r.2)

end EE516.LinkedList
