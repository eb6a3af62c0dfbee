import EE516.Foundations.ColorTree

/-!
# The pointer program of `hw4_redblacktree.c`

The nodes live in a heap of addresses; a pointer is an address or `NULL`. A function of the source
is a state transformer that fails when it dereferences `NULL` or an address that is not allocated
(`Fault`). Loops and recursive calls take a bound on their number of rounds and fail with
`outOfFuel` when it is used up; that failure is no behaviour of the program, and the results about
the program show that it does not occur from a bound on.

`struct rbtnode` holds `int` tags for colour and type; the model has enumerations. `calloc` returns
zeroed memory, whose tags name neither a colour nor a type; the source assigns both before it reads
them.
-/

set_option autoImplicit false

namespace EE516.RedBlackTree

open EE516.Foundations.ColorTree (Color)

/-- An address of a node. -/
abbrev Addr := Nat

/-- A pointer to a node; `none` is `NULL`. -/
abbrev Ptr := Option Addr

/-- The pointer to nothing. -/
abbrev NULL : Ptr := none

/-- The colour of the source for black. -/
abbrev BLACK : Color := .black

/-- The colour of the source for red. -/
abbrev RED : Color := .red

/-- The tree type of a node: a nil node, or a node that carries data. -/
inductive NodeType where
  | NIL
  | ALLOCATED
  deriving DecidableEq, Repr

/-- `struct rbtnode`. -/
structure Rbtnode where
  parent : Ptr
  right : Ptr
  left : Ptr
  pid : Int
  value : Int
  color : Color
  type : NodeType
  deriving DecidableEq, Repr

/-- The global `root`, the allocated nodes, and the next address that `calloc` returns. -/
structure Memory where
  root : Ptr
  heap : Addr → Option Rbtnode
  brk : Addr

/-- Why a program does not come to its end. -/
inductive Fault where
  | nullDereference
  | invalidAddress
  | outOfFuel
  deriving DecidableEq, Repr

/-- A program on the memory, which may meet a fault. -/
abbrev Exec := StateT Memory (Except Fault)

/-- Memory at program start. -/
def Memory.init : Memory := ⟨NULL, fun _ => none, 0⟩

/-- Memory with the node `n` at the address `a`. -/
def Memory.set (s : Memory) (a : Addr) (n : Rbtnode) : Memory :=
  { s with heap := fun b => if b = a then some n else s.heap b }

/-! ## Access to memory -/

/-- The node that `p` points to. -/
def load (p : Ptr) : Exec Rbtnode := fun s =>
  match p with
  | none => .error .nullDereference
  | some a =>
    match s.heap a with
    | none => .error .invalidAddress
    | some n => .ok (n, s)

/-- An assignment to fields of the node that `p` points to. -/
def store (p : Ptr) (f : Rbtnode → Rbtnode) : Exec Unit := fun s =>
  match p with
  | none => .error .nullDereference
  | some a =>
    match s.heap a with
    | none => .error .invalidAddress
    | some n => .ok ((), s.set a (f n))

/-- `p->parent = q`. -/
def setParent (p q : Ptr) : Exec Unit := store p fun n => { n with parent := q }

/-- `p->right = q`. -/
def setRight (p q : Ptr) : Exec Unit := store p fun n => { n with right := q }

/-- `p->left = q`. -/
def setLeft (p q : Ptr) : Exec Unit := store p fun n => { n with left := q }

/-- `p->pid = v`. -/
def setPid (p : Ptr) (v : Int) : Exec Unit := store p fun n => { n with pid := v }

/-- `p->value = v`. -/
def setValue (p : Ptr) (v : Int) : Exec Unit := store p fun n => { n with value := v }

/-- `p->color = c`. -/
def setColor (p : Ptr) (c : Color) : Exec Unit := store p fun n => { n with color := c }

/-- `p->type = t`. -/
def setType (p : Ptr) (t : NodeType) : Exec Unit := store p fun n => { n with type := t }

/-- The value of `root`. -/
def getRoot : Exec Ptr := fun s => .ok (s.root, s)

/-- `root = p`. -/
def setRoot (p : Ptr) : Exec Unit := fun s => .ok ((), { s with root := p })

/-- A node of `calloc`. -/
def zeroNode : Rbtnode := ⟨NULL, NULL, NULL, 0, 0, BLACK, .NIL⟩

/-- A node of zeros at an address that was never used. The allocation does not fail. -/
def calloc : Exec Ptr := fun s =>
  .ok (some s.brk, { s.set s.brk zeroNode with brk := s.brk + 1 })

/-- The node is freed; `free(NULL)` does nothing. -/
def free (p : Ptr) : Exec Unit := fun s =>
  match p with
  | none => .ok ((), s)
  | some a =>
    match s.heap a with
    | none => .error .invalidAddress
    | some _ => .ok ((), { s with heap := fun b => if b = a then none else s.heap b })

/-- The operator `&&`: the second operand is evaluated only after a true first one. -/
def both (a b : Exec Bool) : Exec Bool := do
  if ← a then b else pure false

/-! ## Relatives of a node -/

/-- The parent of the parent, if there is one. -/
def grandparent (n : Ptr) : Exec Ptr := do
  if n ≠ NULL then
    if (← load n).parent ≠ NULL then
      return (← load (← load n).parent).parent
    else
      return NULL
  else
    return NULL

/-- The other child of the grandparent, if there is a grandparent. -/
def uncle (n : Ptr) : Exec Ptr := do
  let g ← grandparent n
  if g = NULL then
    return NULL
  else if (← load n).parent = (← load g).left then
    return (← load g).right
  else
    return (← load g).left

/-- The other child of the parent, if there is a parent. -/
def sibling (n : Ptr) : Exec Ptr := do
  if n = NULL then
    return NULL
  else
    let parent := (← load n).parent
    if parent = NULL then
      return NULL
    else if n = (← load parent).left then
      return (← load parent).right
    else
      return (← load parent).left

/-! ## Rotations -/

/-- The right child takes the place of the node. `root` is not assigned. -/
def rotateLeft (n : Ptr) : Exec Unit := do
  let c := (← load n).right
  let p := (← load n).parent
  if (← load c).left ≠ NULL then
    setParent (← load c).left n
  setRight n (← load c).left
  setParent n c
  setLeft c n
  setParent c p
  if p ≠ NULL then
    if (← load p).left = n then
      setLeft p c
    else
      setRight p c

/-- The left child takes the place of the node. `root` is not assigned. -/
def rotateRight (n : Ptr) : Exec Unit := do
  let c := (← load n).left
  let p := (← load n).parent
  if (← load c).right ≠ NULL then
    setParent (← load c).right n
  setLeft n (← load c).right
  setParent n c
  setRight c n
  setParent c p
  if p ≠ NULL then
    if (← load p).right = n then
      setRight p c
    else
      setLeft p c

/-! ## Insertion -/

/-- The loop of `insertNode` that looks for the nil node at which `v` belongs. The result is that
node and its parent, or none when `v` is found. -/
def findPosition : Nat → Ptr → Ptr → Int → Exec (Option (Ptr × Ptr))
  | 0, _, _, _ => throw .outOfFuel
  | fuel + 1, ret, parent, v => do
    let n ← load ret
    if n.type ≠ .NIL then
      if n.value > v then
        findPosition fuel n.left ret v
      else if n.value < v then
        findPosition fuel n.right ret v
      else
        return none
    else
      return some (ret, parent)

/-- The pair goes into the leaf where the search for its value ends; the result is the new inner
node, or `NULL` for a value that is there already. -/
def insertNode (fuel : Nat) (v pid : Int) : Exec Ptr := do
  if (← getRoot) = NULL then
    setRoot (← calloc)
    let root ← getRoot
    setValue root v
    setPid root pid
    setColor root BLACK
    setType root .ALLOCATED
    setLeft root (← calloc)
    setRight root (← calloc)
    setColor (← load root).left BLACK
    setColor (← load root).right BLACK
    -- the parents of the first two nil nodes stay `NULL`
    setType (← load root).left .NIL
    setType (← load root).right .NIL
    return root
  else
    let root ← getRoot
    match ← findPosition fuel root root v with
    -- a duplicate is not supported
    | none => return NULL
    | some (ret, parent) =>
      setColor ret RED
      setValue ret v
      setPid ret pid
      setType ret .ALLOCATED
      setLeft ret (← calloc)
      setRight ret (← calloc)
      setColor (← load ret).left BLACK
      setColor (← load ret).right BLACK
      setParent ret parent
      setParent (← load ret).right ret
      -- the chained assignment reads the parent that it has just written
      setParent (← load ret).left (← load (← load ret).right).parent
      setType (← load ret).left .NIL
      setType (← load ret).right .NIL
      return ret

/-- The step of `verifyInsertion` that turns an inner grandchild of `g` into an outer one. The
result is the new `target`. -/
def makeOuter (target g : Ptr) : Exec Ptr := do
  if ← both (do return target = (← load (← load target).parent).right)
      (do return (← load target).parent = (← load g).left) then
    rotateLeft (← load target).parent
    return (← load target).left
  else if ← both (do return target = (← load (← load target).parent).left)
      (do return (← load target).parent = (← load g).right) then
    rotateRight (← load target).parent
    return (← load target).right
  else
    return target

/-- The last step of `verifyInsertion`, which lifts the parent of `target` over `g`. -/
def liftParent (target g : Ptr) : Exec Unit := do
  setColor (← load target).parent BLACK
  setColor g RED
  if target = (← load (← load target).parent).left then
    rotateRight g
  else
    rotateLeft g

/-- The repair after an insertion, from the new node upwards. -/
def verifyInsertion : Nat → Ptr → Exec Unit
  | 0, _ => throw .outOfFuel
  | fuel + 1, target => do
    if (← load target).parent = NULL then
      setColor target BLACK
    else if (← load (← load target).parent).color = BLACK then
      return
    else
      let u ← uncle target
      if ← both (pure (u ≠ NULL)) (do return (← load u).color = RED) then
        setColor (← load target).parent BLACK
        setColor u BLACK
        let g ← grandparent target
        setColor g RED
        verifyInsertion fuel g
      else
        let g ← grandparent target
        -- no rotation updates `root`, whichever node it lifts
        let target ← makeOuter target g
        liftParent target g

/-! ## Deletion -/

/-- The loop of `leftmostNode`. -/
def leftmostLoop : Nat → Ptr → Exec Ptr
  | 0, _ => throw .outOfFuel
  | fuel + 1, ret => do
    let n ← load ret
    if n.type ≠ .NIL then
      leftmostLoop fuel n.left
    else
      return n.parent

/-- The leftmost inner node below the target. -/
def leftmostNode (fuel : Nat) (target : Ptr) : Exec Ptr :=
  if target = NULL then return NULL else leftmostLoop fuel target

/-- The loop of `getMaximum`. -/
def maximumLoop : Nat → Ptr → Exec Ptr
  | 0, _ => throw .outOfFuel
  | fuel + 1, ret => do
    let n ← load ret
    if n.type ≠ .NIL then
      maximumLoop fuel n.right
    else
      return n.parent

/-- The rightmost inner node below the target. -/
def getMaximum (fuel : Nat) (target : Ptr) : Exec Ptr :=
  if target = NULL then return NULL else maximumLoop fuel target

/-- The node is a leaf. -/
def isLeaf (target : Ptr) : Exec Bool := do
  return (← load target).type = .NIL

/-- The far child of the sibling is made black, and a rotation ends the repair. -/
def delete_case6 (n : Ptr) : Exec Unit := do
  let s ← sibling n
  setColor s (← load (← load n).parent).color
  setColor (← load n).parent BLACK
  if n = (← load (← load n).parent).left then
    setColor (← load s).right BLACK
    rotateLeft (← load n).parent
  else
    setColor (← load s).left BLACK
    rotateRight (← load n).parent

/-- The black sibling has a red child on the near side only, which a rotation brings to the far
side. -/
def delete_case5 (n : Ptr) : Exec Unit := do
  let s ← sibling n
  if (← load s).color = BLACK then
    if ← both (do return n = (← load (← load n).parent).left)
        (both (do return (← load (← load s).right).color = BLACK)
          (do return (← load (← load s).left).color = RED)) then
      setColor s RED
      setColor (← load s).left BLACK
      rotateRight s
    else if ← both (do return n = (← load (← load n).parent).right)
        (both (do return (← load (← load s).left).color = BLACK)
          (do return (← load (← load s).right).color = RED)) then
      setColor s RED
      setColor (← load s).right BLACK
      rotateLeft s
  delete_case6 n

/-- A red parent with a black sibling and black nephews: the two change their colours. -/
def delete_case4 (n : Ptr) : Exec Unit := do
  let s ← sibling n
  if ← both (do return (← load (← load n).parent).color = RED)
      (both (do return (← load s).color = BLACK)
        (both (do return (← load (← load s).left).color = BLACK)
          (do return (← load (← load s).right).color = BLACK))) then
    setColor s RED
    setColor (← load n).parent BLACK
  else
    delete_case5 n

/-- `delete_case3`, with the function it calls for the parent (`delete_case1`) as a parameter. -/
def delete_case3 (case1 : Ptr → Exec Unit) (n : Ptr) : Exec Unit := do
  let s ← sibling n
  if ← both (do return (← load (← load n).parent).color = BLACK)
      (both (do return (← load s).color = BLACK)
        (both (do return (← load (← load s).left).color = BLACK)
          (do return (← load (← load s).right).color = BLACK))) then
    setColor s RED
    case1 (← load n).parent
  else
    delete_case4 n

/-- A red sibling: a rotation makes it black. -/
def delete_case2 (case1 : Ptr → Exec Unit) (n : Ptr) : Exec Unit := do
  let s ← sibling n
  if (← load s).color = RED then
    setColor (← load n).parent RED
    setColor s BLACK
    if n = (← load (← load n).parent).left then
      rotateLeft (← load n).parent
    else
      rotateRight (← load n).parent
  delete_case3 case1 n

/-- The repair after a deletion; at the top nothing is left to do. -/
def delete_case1 : Nat → Ptr → Exec Unit
  | 0, _ => throw .outOfFuel
  | fuel + 1, n => do
    if (← load n).parent ≠ NULL then
      delete_case2 (delete_case1 fuel) n

/-- The step of `deleteNode` that puts `child` in the place of `deleteTarget`. -/
def replaceByChild (deleteTarget child : Ptr) : Exec Unit := do
  if (← load deleteTarget).parent = NULL then
    -- the node was the topmost one
    setParent child NULL
    setRoot child
  else
    if (← load (← load deleteTarget).parent).left = deleteTarget then
      setLeft (← load deleteTarget).parent child
    else
      setRight (← load deleteTarget).parent child
    setParent child (← load deleteTarget).parent

/-- The step of `deleteNode` that makes up for the colour of `deleteTarget`. -/
def repairColor (fuel : Nat) (deleteTarget child : Ptr) : Exec Unit := do
  if (← load deleteTarget).color = BLACK then
    if (← load child).color = RED then
      setColor child BLACK
    else
      delete_case1 fuel child

/-- The node is deleted. Above two leaves it becomes a leaf itself, without any repair; between two
inner nodes it gets the pair of the greatest value on its left, and the node of that value is
unlinked. -/
def deleteNode (fuel : Nat) (target : Ptr) : Exec Unit := do
  if ← both (do return (← load (← load target).right).type = .NIL)
      (do return (← load (← load target).left).type = .NIL) then
    free (← load target).right
    free (← load target).left
    setRight target NULL
    setLeft target NULL
    -- the node itself is not freed: it is the nil node now
    setType target .NIL
    if target = (← getRoot) then
      setRoot NULL
  else
    let deleteTarget ←
      if ← both (do return (← load (← load target).right).type = .ALLOCATED)
          (do return (← load (← load target).left).type = .ALLOCATED) then
        let deleteTarget ← getMaximum fuel (← load target).left
        let v := (← load deleteTarget).value
        let pid := (← load deleteTarget).pid
        setValue deleteTarget (← load target).value
        -- both assignments of the source are to `value`
        setValue deleteTarget (← load target).pid
        setValue target v
        setPid target pid
        pure deleteTarget
      else
        pure target
    let child ←
      if ← isLeaf (← load deleteTarget).right then
        pure (← load deleteTarget).left
      else
        pure (← load deleteTarget).right
    replaceByChild deleteTarget child
    repairColor fuel deleteTarget child
    setLeft deleteTarget NULL
    setRight deleteTarget NULL
    setType deleteTarget .NIL

/-- `root` is `NULL`. -/
def isEmpty : Exec Bool := do
  return (← getRoot) = NULL

/-! ## The main program -/

/-- The pairs `(value, pid)` that `main` inserts. -/
def vrt : List (Int × Int) :=
  [(27, 0), (19, 1), (34, 2), (65, 3), (37, 4), (7, 5), (49, 6), (2, 7), (98, 8)]

/-- One round of the first loop of `main`. -/
def insertRound (fuel : Nat) (v pid : Int) : Exec Unit := do
  verifyInsertion fuel (← insertNode fuel v pid)

/-- The first loop of `main`: each pair `(value, pid)` is inserted in turn. -/
def insertAll (fuel : Nat) : List (Int × Int) → Exec Unit
  | [] => return
  | (v, pid) :: rest => do
    insertRound fuel v pid
    insertAll fuel rest

/-- One round of the second loop of `main`: the pair it prints, as `(pid, value)`. -/
def drainRound (fuel : Nat) : Exec (Int × Int) := do
  let p ← leftmostNode fuel (← getRoot)
  let printed := ((← load p).pid, (← load p).value)
  deleteNode fuel p
  return printed

/-- The second loop of `main`; the result lists the printed pairs, one for each round. -/
def drain (fuel : Nat) : Nat → Exec (List (Int × Int))
  | 0 => throw .outOfFuel
  | rounds + 1 => do
    if !(← isEmpty) then
      let printed ← drainRound fuel
      return printed :: (← drain fuel rounds)
    else
      return []

/-- `main` on the pairs `(value, pid)` that it inserts. -/
def main (fuel : Nat) (pairs : List (Int × Int)) : Exec (List (Int × Int)) := do
  insertAll fuel pairs
  drain fuel fuel

end EE516.RedBlackTree
