import EE516.Foundations.Ring

/-!
# `project4/list.h`

The doubly linked lists of the kernel, on a heap of `struct list_head`s. An access through a pointer
that leads to no allocated cell is a fault; the poison that `list_del` leaves behind is such a
pointer. The macros that find the structure around a `list_head` are left to the users of the list.
-/

set_option autoImplicit false

namespace EE516.KernelList

open EE516.Foundations

/-- A `struct list_head *`: an address, or one of the three values that point to nothing. -/
inductive Ptr (κ : Type) where
  | addr (a : κ)
  | NULL
  | LIST_POISON1
  | LIST_POISON2
  deriving DecidableEq, Repr

/-- `struct list_head`. -/
structure ListHead (κ : Type) where
  next : Ptr κ
  prev : Ptr κ
  deriving DecidableEq, Repr

/-- The allocated cells. -/
abbrev Heap (κ : Type) := κ → Option (ListHead κ)

variable {κ : Type}

/-- The address that a pointer holds, if it holds one. -/
def Ptr.cell : Ptr κ → Option κ
  | .addr a => some a
  | _ => none

/-- What a pointer leads to; none if it leads nowhere. -/
def load (heap : Heap κ) (p : Ptr κ) : Option (ListHead κ) :=
  p.cell.bind heap

variable [DecidableEq κ]

/-- An assignment through a pointer; none if it leads nowhere. -/
def store (heap : Heap κ) (p : Ptr κ) (f : ListHead κ → ListHead κ) : Option (Heap κ) :=
  p.cell.bind fun a => (heap a).map fun c => Function.update heap a (some (f c))

/-- `p->next = q`. -/
def setNext (heap : Heap κ) (p q : Ptr κ) : Option (Heap κ) :=
  store heap p fun c => { c with next := q }

/-- `p->prev = q`. -/
def setPrev (heap : Heap κ) (p q : Ptr κ) : Option (Heap κ) :=
  store heap p fun c => { c with prev := q }

/-- The head of an empty list points to itself. -/
def INIT_LIST_HEAD (heap : Heap κ) (ptr : Ptr κ) : Option (Heap κ) := do
  let heap ← setNext heap ptr ptr
  setPrev heap ptr ptr

/-- `__list_add`. -/
def listAddBetween (heap : Heap κ) (new prev next : Ptr κ) : Option (Heap κ) := do
  let heap ← setPrev heap next new
  let heap ← setNext heap new next
  let heap ← setPrev heap new prev
  setNext heap prev new

/-- The new entry goes behind the head. -/
def list_add (heap : Heap κ) (new head : Ptr κ) : Option (Heap κ) := do
  let h ← load heap head
  listAddBetween heap new head h.next

/-- The new entry goes before the head, which is the end of the list. -/
def list_add_tail (heap : Heap κ) (new head : Ptr κ) : Option (Heap κ) := do
  let h ← load heap head
  listAddBetween heap new h.prev head

/-- `__list_del`. -/
def listDelBetween (heap : Heap κ) (prev next : Ptr κ) : Option (Heap κ) := do
  let heap ← setPrev heap next prev
  setNext heap prev next

/-- The entry is taken out, and its pointers are poisoned. -/
def list_del (heap : Heap κ) (entry : Ptr κ) : Option (Heap κ) := do
  let e ← load heap entry
  let heap ← listDelBetween heap e.prev e.next
  let heap ← setNext heap entry .LIST_POISON1
  setPrev heap entry .LIST_POISON2

/-- The entry is taken out, and becomes a list of its own. -/
def list_del_init (heap : Heap κ) (entry : Ptr κ) : Option (Heap κ) := do
  let e ← load heap entry
  let heap ← listDelBetween heap e.prev e.next
  INIT_LIST_HEAD heap entry

/-- The entry is taken out of its list and goes behind the head. -/
def list_move (heap : Heap κ) (list head : Ptr κ) : Option (Heap κ) := do
  let e ← load heap list
  let heap ← listDelBetween heap e.prev e.next
  list_add heap list head

/-- The entry is taken out of its list and goes before the head. -/
def list_move_tail (heap : Heap κ) (list head : Ptr κ) : Option (Heap κ) := do
  let e ← load heap list
  let heap ← listDelBetween heap e.prev e.next
  list_add_tail heap list head

/-- A list is empty when its head points to itself. -/
def list_empty (heap : Heap κ) (head : Ptr κ) : Option Bool := do
  let h ← load heap head
  some (decide (h.next = head))

/-- `__list_splice`. -/
def listSpliceBehind (heap : Heap κ) (list head : Ptr κ) : Option (Heap κ) := do
  let l ← load heap list
  let h ← load heap head
  let first := l.next
  let last := l.prev
  let after := h.next
  let heap ← setPrev heap first head
  let heap ← setNext heap head first
  let heap ← setNext heap last after
  setPrev heap after last

/-- The entries of the list go behind the head; the head of the list still points to them. -/
def list_splice (heap : Heap κ) (list head : Ptr κ) : Option (Heap κ) := do
  let empty ← list_empty heap list
  if empty then some heap else listSpliceBehind heap list head

/-- The entries of the list go behind the head, and the list is empty. -/
def list_splice_init (heap : Heap κ) (list head : Ptr κ) : Option (Heap κ) := do
  let empty ← list_empty heap list
  if empty then some heap
  else
    let heap ← listSpliceBehind heap list head
    INIT_LIST_HEAD heap list

/-- The loop of `list_for_each` from `pos` on, for `fuel` tests at most: the cells it visits. -/
def forEachLoop (heap : Heap κ) (head : Ptr κ) : Nat → Ptr κ → Option (List κ)
  | 0, _ => none
  | fuel + 1, pos =>
    if pos = head then some []
    else do
      let a ← pos.cell
      let c ← heap a
      let l ← forEachLoop heap head fuel c.next
      some (a :: l)

/-- The cells that `list_for_each` visits; none if it does not end within the fuel. -/
def list_for_each (heap : Heap κ) (fuel : Nat) (head : Ptr κ) : Option (List κ) := do
  let h ← load heap head
  forEachLoop heap head fuel h.next

/-! ## The pointers of a heap -/

omit [DecidableEq κ] in
/-- A heap as cells that point to cells. -/
def links (heap : Heap κ) : Links κ where
  next a := (heap a).bind fun c => c.next.cell
  prev a := (heap a).bind fun c => c.prev.cell

/-- The second heap has the pointers `g`, and the cells of the first. -/
structure Rewired (heap : Heap κ) (g : Links κ) (heap' : Heap κ) : Prop where
  links : links heap' = g
  live : ∀ a, (heap' a).isSome = (heap a).isSome

variable {heap heap₁ heap₂ : Heap κ} {g : Links κ} {a b n x : κ} {p q : Ptr κ}

theorem store_run {f : ListHead κ → ListHead κ} (ha : (heap a).isSome = true) :
    ∃ c, heap a = some c ∧ store heap (.addr a) f = some (Function.update heap a (some (f c))) := by
  obtain ⟨c, hc⟩ := Option.isSome_iff_exists.1 ha
  exact ⟨c, hc, by simp [store, Ptr.cell, hc]⟩

theorem isSome_update {c : ListHead κ} (ha : (heap a).isSome = true) (d : κ) :
    (Function.update heap a (some c) d).isSome = (heap d).isSome := by
  by_cases hd : d = a
  · subst hd
    rw [Function.update_self, ha]
    rfl
  · rw [Function.update_of_ne hd]

theorem setNext_run (ha : (heap a).isSome = true) (q : Ptr κ) :
    ∃ heap', setNext heap (.addr a) q = some heap' ∧
      Rewired heap { links heap with next := Function.update (links heap).next a q.cell }
        heap' := by
  obtain ⟨c, hc, hrun⟩ := store_run (f := fun c => { c with next := q }) ha
  refine ⟨_, hrun, ?_, isSome_update ha⟩
  have hnext : (links (Function.update heap a (some { c with next := q }))).next =
      Function.update (links heap).next a q.cell := by
    funext d
    by_cases hd : d = a
    · subst hd
      simp [links]
    · simp [links, hd]
  have hprev : (links (Function.update heap a (some { c with next := q }))).prev =
      (links heap).prev := by
    funext d
    by_cases hd : d = a
    · subst hd
      simp [links, hc]
    · simp [links, hd]
  exact Links.ext hnext hprev

theorem setPrev_run (ha : (heap a).isSome = true) (q : Ptr κ) :
    ∃ heap', setPrev heap (.addr a) q = some heap' ∧
      Rewired heap { links heap with prev := Function.update (links heap).prev a q.cell }
        heap' := by
  obtain ⟨c, hc, hrun⟩ := store_run (f := fun c => { c with prev := q }) ha
  refine ⟨_, hrun, ?_, isSome_update ha⟩
  have hnext : (links (Function.update heap a (some { c with prev := q }))).next =
      (links heap).next := by
    funext d
    by_cases hd : d = a
    · subst hd
      simp [links, hc]
    · simp [links, hd]
  have hprev : (links (Function.update heap a (some { c with prev := q }))).prev =
      Function.update (links heap).prev a q.cell := by
    funext d
    by_cases hd : d = a
    · subst hd
      simp [links]
    · simp [links, hd]
  exact Links.ext hnext hprev

/-- `b->prev = a; a->next = b`. -/
theorem join_run (ha : (heap a).isSome = true) (hb : (heap b).isSome = true) :
    ∃ heap', (setPrev heap (.addr b) (.addr a)).bind (fun h => setNext h (.addr a) (.addr b)) =
      some heap' ∧ Rewired heap ((links heap).join a b) heap' := by
  obtain ⟨h₁, hrun₁, hlinks₁, hlive₁⟩ := setPrev_run hb (.addr a)
  obtain ⟨h₂, hrun₂, hlinks₂, hlive₂⟩ := setNext_run ((hlive₁ a).trans ha) (.addr b)
  refine ⟨h₂, ?_, ?_, fun d => (hlive₂ d).trans (hlive₁ d)⟩
  · rw [hrun₁]
    exact hrun₂
  · rw [hlinks₂, hlinks₁]
    rfl

/-- `a->next = b; b->prev = a`. -/
theorem join_run' (ha : (heap a).isSome = true) (hb : (heap b).isSome = true) :
    ∃ heap', (setNext heap (.addr a) (.addr b)).bind (fun h => setPrev h (.addr b) (.addr a)) =
      some heap' ∧ Rewired heap ((links heap).join a b) heap' := by
  obtain ⟨h₁, hrun₁, hlinks₁, hlive₁⟩ := setNext_run ha (.addr b)
  obtain ⟨h₂, hrun₂, hlinks₂, hlive₂⟩ := setPrev_run ((hlive₁ b).trans hb) (.addr a)
  refine ⟨h₂, ?_, ?_, fun d => (hlive₂ d).trans (hlive₁ d)⟩
  · rw [hrun₁]
    exact hrun₂
  · rw [hlinks₂, hlinks₁]
    rfl

/-- `__list_add` makes the new cell a neighbour of both. -/
theorem listAddBetween_run (hx : (heap x).isSome = true) (ha : (heap a).isSome = true)
    (hn : (heap n).isSome = true) :
    ∃ heap', listAddBetween heap (.addr x) (.addr a) (.addr n) = some heap' ∧
      Rewired heap (((links heap).join x n).join a x) heap' := by
  obtain ⟨h₁, hrun₁, hlinks₁, hlive₁⟩ := join_run hx hn
  obtain ⟨h₂, hrun₂, hlinks₂, hlive₂⟩ := join_run ((hlive₁ a).trans ha) ((hlive₁ x).trans hx)
  refine ⟨h₂, ?_, ?_, fun d => (hlive₂ d).trans (hlive₁ d)⟩
  · obtain ⟨h₀, hprev, hnext⟩ := Option.bind_eq_some_iff.1 hrun₁
    simp only [listAddBetween, Option.bind_eq_bind, hprev, hnext, Option.bind_some]
    exact hrun₂
  · rw [hlinks₂, hlinks₁]

/-- `__list_del` makes the two cells neighbours. -/
theorem listDelBetween_run (ha : (heap a).isSome = true) (hn : (heap n).isSome = true) :
    ∃ heap', listDelBetween heap (.addr a) (.addr n) = some heap' ∧
      Rewired heap ((links heap).join a n) heap' :=
  join_run ha hn

/-- `INIT_LIST_HEAD` joins a cell to itself. -/
theorem INIT_LIST_HEAD_run (ha : (heap a).isSome = true) :
    ∃ heap', INIT_LIST_HEAD heap (.addr a) = some heap' ∧
      Rewired heap ((links heap).join a a) heap' :=
  join_run' ha ha

end EE516.KernelList
