import EE516.StackDriver.Refinement

/-!
# Reads of the empty stack

A read of the empty stack returns -1. So does a read that pops the byte 0xFF, which is -1 as a
signed char: a client that takes -1 for the empty stack loses that element.
-/

set_option autoImplicit false

namespace EE516.StackDriver

open EE516.Foundations

variable {s s' : State} {l : Bytes} {e : Event} {τ : List Event}

end EE516.StackDriver
