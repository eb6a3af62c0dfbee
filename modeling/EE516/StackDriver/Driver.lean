import EE516.Foundations.Run

/-!
# The stack driver

The character device of `hw1/hw1_driver.c`. The stack is an array with a pointer to its top; the
model fails (`none`) where the code would access the array outside of its 257 entries or use a
variable without a value. The mutex `my_mutex` makes each call one step, and the printing is left
out. Plain `char` is signed.
-/

set_option autoImplicit false

namespace EE516.StackDriver

open EE516.Foundations

/-- The code of a push. -/
def PUSH : Int := 0x1234

/-- The code of a pop. -/
def POP : Int := 0x1235

/-- The code of a clean. -/
def CLEAN : Int := 0x1236

/-- The result of an operation that has failed. -/
def FAILED : Int := 0x7fffffff

/-- The global variables. -/
structure State where
  stack : List Int
  stackpointer : Int
  deriving DecidableEq

/-- The stack is empty. -/
def start : State := ⟨List.replicate 257 0, -1⟩

/-- The stack has no entry. -/
def empty (s : State) : Bool := s.stackpointer = -1

/-- The number of entries. -/
def size (s : State) : Int := s.stackpointer + 1

/-- The stack has 256 entries. -/
def full (s : State) : Bool := s.stackpointer = 255

/-- The entry of the array at an index. -/
def getEntry (stack : List Int) (i : Int) : Option Int :=
  if 0 ≤ i then stack[i.toNat]? else none

/-- An assignment to an entry of the array. -/
def setEntry (stack : List Int) (i v : Int) : Option (List Int) :=
  if 0 ≤ i ∧ i < stack.length then some (stack.set i.toNat v) else none

/-- What an operation returns in `r`, if it has given it a value, and the index of `stack` that it
has used. -/
structure Outcome where
  r : Option Int
  index : Option Int

/-- The function that all operations go through, with what it returns and stores. -/
def modifyStack (s : State) (type v : Int) : Option (Outcome × State) :=
  if type = PUSH then
    if full s then some (⟨some FAILED, none⟩, s)
    else do
      let stackpointer := s.stackpointer + 1
      let stack ← setEntry s.stack stackpointer v
      let s : State := ⟨stack, stackpointer⟩
      some (⟨some (size s), some stackpointer⟩, s)
  else if type = POP then
    if empty s then some (⟨some FAILED, none⟩, s)
    else do
      let r ← getEntry s.stack s.stackpointer
      some (⟨some r, some s.stackpointer⟩, { s with stackpointer := s.stackpointer - 1 })
  else if type = CLEAN then some (⟨none, none⟩, { s with stackpointer := -1 })
  else some (⟨some FAILED, none⟩, s)

/-- The value is put on top. -/
def push (s : State) (v : Int) : Option (Outcome × State) := modifyStack s PUSH v

/-- The top is taken off. -/
def pop (s : State) : Option (Outcome × State) := modifyStack s POP 0

/-- A call of the driver; `buffer0` is the first byte of the buffer. -/
inductive Call where
  | read
  | write (buffer0 : Int8)
  | ioctl (cmd : UInt32)
  deriving DecidableEq

/-- A call with the outcome of the operation under it, if it made one, and what it returned. -/
structure Event where
  call : Call
  outcome : Option Outcome
  ret : Int

/-- A read pops; -1 tells that the stack was empty. -/
def hw1_read (s : State) : Option (Event × State) := do
  let (o, s') ← pop s
  let k ← o.r
  some (⟨.read, some o, if k = FAILED then -1 else k⟩, s')

/-- A write pushes the first byte of its buffer. -/
def hw1_write (s : State) (buffer0 : Int8) : Option (Event × State) := do
  let (o, s') ← push s buffer0.toInt
  let r ← o.r
  some (⟨.write buffer0, some o, r⟩, s')

/-- The command 0 cleans the stack; any other one does nothing. -/
def hw1_ioctl (s : State) (cmd : UInt32) : Option (Event × State) :=
  if cmd = 0 then do
    let (o, s') ← modifyStack s CLEAN 0
    some (⟨.ioctl cmd, some o, 0⟩, s')
  else some (⟨.ioctl cmd, none, 0⟩, s)

/-- A call is one step. -/
def step (s : State) : Call → Option (Event × State)
  | .read => hw1_read s
  | .write buffer0 => hw1_write s buffer0
  | .ioctl cmd => hw1_ioctl s cmd

end EE516.StackDriver
