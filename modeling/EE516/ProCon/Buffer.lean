import EE516.Foundations.Monitor
import EE516.ProCon.Threads

/-!
# The bounded buffer

The semaphore `mutex` makes a monitor of the count and of the number of items that were stored and
not yet loaded, which are equal while no thread is midway between the two accesses of `insert_item`
or of `remove_item` (`stack`). The semaphores `empty` and `full` are accounted for by the threads
that hold their slots, and the count by the rounds that the producers and the consumers still have
to do (`Accounts`). Index safety, the conservation of the items and the absence of deadlocks follow.
-/

set_option autoImplicit false

namespace EE516.ProCon

open EE516.Foundations

universe u v

/-! ## The items in a history -/

/-- The items that were stored in the array. -/
def inserted : List Event → Multiset Int
  | [] => 0
  | .stored _ item :: τ => item ::ₘ inserted τ
  | _ :: τ => inserted τ

/-- The items that were loaded from the array. -/
def consumed : List Event → Multiset Int
  | [] => 0
  | .loaded _ item :: τ => item ::ₘ consumed τ
  | _ :: τ => consumed τ

/-- The number of items that were stored and not yet loaded. -/
def size : List Event → Int
  | [] => 0
  | .stored _ _ :: τ => size τ + 1
  | .loaded _ _ :: τ => size τ - 1
  | .passed :: τ => size τ

/-- The items in `buffer[0..n-1]`. -/
def items (buffer : Int → Int) (n : Int) : Multiset Int :=
  (Multiset.range n.toNat).map fun k : Nat => buffer k

theorem items_update (buffer : Int → Int) (n item : Int) :
    items (Function.update buffer n item) n = items buffer n := by
  refine Multiset.map_congr rfl fun k hk => ?_
  have hlt := Multiset.mem_range.1 hk
  exact Function.update_of_ne (by omega) _ _

/-- The items below the next index are one more. -/
theorem items_succ (buffer : Int → Int) {n : Int} (h : 0 ≤ n) :
    items buffer (n + 1) = buffer n ::ₘ items buffer n := by
  have hn : (n + 1).toNat = n.toNat + 1 := by omega
  rw [items, items, hn, Multiset.range_succ, Multiset.map_cons, Int.toNat_of_nonneg h]

/-- The index of the array that a step uses is within the array. -/
def Event.InArray : Event → Prop
  | .stored index _ => 0 ≤ index ∧ index ≤ 99
  | .loaded index _ => 0 ≤ index ∧ index ≤ 99
  | .passed => True

/-! ## Positions -/

/-- The thread is inside `insert_item` or `remove_item`. -/
def Pos.inside : Pos → Bool
  | .producer (.insert _ _) | .producer (.inserting _ _ _) => true
  | .producer (.storingItem _ _ _) | .producer (.storingCount _ _) => true
  | .consumer (.remove _) | .consumer (.removing _ _) => true
  | .consumer (.loadingItem _ _) | .consumer (.storingCount _ _) => true
  | _ => false

/-- The thread has done one of the two accesses of `insert_item` or `remove_item` to the array and
the count, and not the other one. -/
def Pos.midway : Pos → Bool
  | .producer (.storingItem _ _ _) | .producer (.storingCount _ _) => true
  | .consumer (.loadingItem _ _) | .consumer (.storingCount _ _) => true
  | _ => false

/-- The thread is between its wait for `mutex` and its post. -/
def Pos.holdsMutex : Pos → Bool
  | .producer (.postMutex _) | .consumer (.postMutex _) => true
  | x => x.inside

/-- The monitor of `mutex`: the count and the number of items, as the holder left them. -/
def stack : Monitor Pos (Int × Int) where
  holds := Pos.holdsMutex
  idle d := d.1 = d.2
  busy d
    | .producer (.inserting _ _ c) => d.1 = c ∧ d.2 = c
    | .producer (.storingItem _ _ c) => d.1 = c + 1 ∧ d.2 = c
    | .producer (.storingCount _ c) => d.1 = c ∧ d.2 = c + 1
    | .consumer (.removing _ c) => d.1 = c ∧ d.2 = c
    | .consumer (.loadingItem _ c) => d.1 = c - 1 ∧ d.2 = c
    | .consumer (.storingCount _ c) => d.1 = c ∧ d.2 = c - 1
    | _ => d.1 = d.2

/-- A producer that waited at `empty` holds a slot until it has raised the count, and a consumer
that has lowered the count holds one until its post. -/
def emptySlots : Pos → Nat
  | .producer (.waitMutex _ _) | .producer (.insert _ _) => 1
  | .producer (.inserting _ _ _) | .producer (.storingCount _ _) => 1
  | .consumer (.loadingItem _ _) | .consumer (.postMutex _) => 1
  | .consumer (.postEmpty _) => 1
  | _ => 0

/-- A producer that has raised the count holds a slot until its post, and a consumer that waited at
`full` holds one until it has lowered the count. -/
def fullSlots : Pos → Nat
  | .producer (.storingItem _ _ _) | .producer (.postMutex _) => 1
  | .producer (.postFull _) => 1
  | .consumer (.waitMutex _) | .consumer (.remove _) => 1
  | .consumer (.removing _ _) | .consumer (.storingCount _ _) => 1
  | _ => 0

/-- How often the thread has yet to raise the count. -/
def toInsert : Pos → Nat
  | .producer (.loop i) | .producer (.waitEmpty i _) => ROUNDS + 1 - i
  | .producer (.waitMutex i _) | .producer (.insert i _) => ROUNDS + 1 - i
  | .producer (.inserting i _ _) | .producer (.storingCount i _) => ROUNDS + 1 - i
  | .producer (.storingItem i _ _) | .producer (.postMutex i) => ROUNDS - i
  | .producer (.postFull i) => ROUNDS - i
  | _ => 0

/-- How often the thread has yet to lower the count. -/
def toRemove : Pos → Nat
  | .consumer (.loop i) | .consumer (.waitFull i) => ROUNDS + 1 - i
  | .consumer (.waitMutex i) | .consumer (.remove i) => ROUNDS + 1 - i
  | .consumer (.removing i _) | .consumer (.storingCount i _) => ROUNDS + 1 - i
  | .consumer (.loadingItem i _) | .consumer (.postMutex i) => ROUNDS - i
  | .consumer (.postEmpty i) => ROUNDS - i
  | _ => 0

/-- The round of a thread in the body of its loop. -/
def Pos.round : Pos → Nat
  | .producer (.waitEmpty i _) | .producer (.waitMutex i _) | .producer (.insert i _) => i
  | .producer (.inserting i _ _) | .producer (.storingItem i _ _) => i
  | .producer (.storingCount i _) | .producer (.postMutex i) | .producer (.postFull i) => i
  | .consumer (.waitFull i) | .consumer (.waitMutex i) | .consumer (.remove i) => i
  | .consumer (.removing i _) | .consumer (.loadingItem i _) => i
  | .consumer (.storingCount i _) | .consumer (.postMutex i) | .consumer (.postEmpty i) => i
  | _ => 0

/-- The thread is at its end. -/
def Pos.finished : Pos → Bool
  | .producer .finished | .consumer .finished => true
  | _ => false

/-- The value of the semaphore that the thread's next step waits at, or 1 when it waits at none. -/
def Pos.gate (m : Shared) : Pos → Nat
  | .producer (.waitEmpty _ _) => m.empty
  | .consumer (.waitFull _) => m.full
  | .producer (.waitMutex _ _) | .consumer (.waitMutex _) => m.mutex
  | _ => 1

/-- A thread has a step unless it has finished or waits at a semaphore of value 0. -/
theorem threadStep_isSome {m : Shared} {o : Choice} {x : Pos} (hf : x.finished = false)
    (hgate : 0 < x.gate m) : (threadStep m o x).isSome = true := by
  cases x with
  | producer x =>
    cases x with
    | loop i =>
      simp only [threadStep, producerStep]
      split <;> rfl
    | waitEmpty i item => simp [threadStep, producerStep, show 0 < m.empty from hgate]
    | waitMutex i item => simp [threadStep, producerStep, show 0 < m.mutex from hgate]
    | inserting i item c =>
      simp only [threadStep, producerStep]
      split <;> rfl
    | finished => cases hf
    | _ => rfl
  | consumer x =>
    cases x with
    | loop i =>
      simp only [threadStep, consumerStep]
      split <;> rfl
    | waitFull i => simp [threadStep, consumerStep, show 0 < m.full from hgate]
    | waitMutex i => simp [threadStep, consumerStep, show 0 < m.mutex from hgate]
    | removing i c =>
      simp only [threadStep, consumerStep]
      split <;> rfl
    | finished => cases hf
    | _ => rfl

/-- A thread that has finished or waits for a slot of `empty` or `full` that there is not. -/
inductive Resting (m : Shared) : Pos → Prop
  | producer : Resting m (.producer .finished)
  | consumer : Resting m (.consumer .finished)
  | noSlot {i : Nat} {item : Int} : m.empty = 0 → Resting m (.producer (.waitEmpty i item))
  | noItem {i : Nat} : m.full = 0 → Resting m (.consumer (.waitFull i))

/-- A thread that cannot go on while `mutex` is free rests. -/
theorem resting {m : Shared} {x : Pos} (hmutex : m.mutex ≠ 0)
    (h : x.finished = false → x.gate m = 0) : Resting m x := by
  cases x with
  | producer x =>
    cases x with
    | finished => exact .producer
    | waitEmpty i item => exact .noSlot (h rfl)
    | waitMutex i item => exact absurd (h rfl) hmutex
    | _ => cases h rfl
  | consumer x =>
    cases x with
    | finished => exact .consumer
    | waitFull i => exact .noItem (h rfl)
    | waitMutex i => exact absurd (h rfl) hmutex
    | _ => cases h rfl

/-- A resting thread holds no slot. -/
theorem Resting.slots {m : Shared} {x : Pos} (h : Resting m x) :
    emptySlots x = 0 ∧ fullSlots x = 0 := by
  cases h <;> exact ⟨rfl, rfl⟩

theorem Resting.toRemove {m : Shared} {x : Pos} (h : Resting m x) (hfull : m.full ≠ 0) :
    toRemove x = 0 := by
  cases h with
  | noItem hzero => exact absurd hzero hfull
  | _ => rfl

theorem Resting.toInsert {m : Shared} {x : Pos} (h : Resting m x) (hempty : m.empty ≠ 0) :
    toInsert x = 0 := by
  cases h with
  | noSlot hzero => exact absurd hzero hempty
  | _ => rfl

theorem gate_of_holds (m : Shared) {x : Pos} (h : x.holdsMutex = true) :
    x.finished = false ∧ x.gate m = 1 := by
  cases x with
  | producer x => cases x <;> first | exact ⟨rfl, rfl⟩ | cases h
  | consumer x => cases x <;> first | exact ⟨rfl, rfl⟩ | cases h

theorem holds_of_inside {x : Pos} (h : x.inside = true) : x.holdsMutex = true := by
  cases x with
  | producer x => cases x <;> first | rfl | cases h
  | consumer x => cases x <;> first | rfl | cases h

/-- Between the calls, and in them before the first access and after the last one, the count is the
number of items. -/
theorem count_of_busy {d : Int × Int} {x : Pos} (h : stack.busy d x) (hx : x.midway = false) :
    d.1 = d.2 := by
  cases x with
  | producer x =>
    cases x with
    | inserting => exact h.1.trans h.2.symm
    | storingItem | storingCount => cases hx
    | _ => exact h
  | consumer x =>
    cases x with
    | removing => exact h.1.trans h.2.symm
    | loadingItem | storingCount => cases hx
    | _ => exact h

theorem left_of_finished {x : Pos} (h : x.finished = true) :
    toInsert x = 0 ∧ toRemove x = 0 := by
  cases x with
  | producer x => cases x <;> first | exact ⟨rfl, rfl⟩ | cases h
  | consumer x => cases x <;> first | exact ⟨rfl, rfl⟩ | cases h

/-! ## One step -/

section Moves

variable {m m' : Shared} {x y : Pos} {e : Event} {τ : List Event}

/-- What the monitor says of the count and the items when a thread is at a position. -/
def Settled (m : Shared) (τ : List Event) (x : Pos) : Prop :=
  x.holdsMutex = true → stack.busy (m.count, size τ) x

/-- Every move of a thread is one of the monitor of the buffer. -/
theorem stack_move (h : Move m x e m' y) :
    stack.Move m.mutex (m.count, size τ) x m'.mutex (m'.count, size (e :: τ)) y := by
  cases h with
  | producerLocked hpos | consumerLocked hpos =>
    obtain ⟨k, hk⟩ : ∃ k, m.mutex = k + 1 := ⟨m.mutex - 1, by omega⟩
    simp only [hk, Nat.add_sub_cancel]
    exact .enter rfl rfl id
  | insertRead | removeRead => exact .stay rfl rfl fun hd => ⟨rfl, hd.symm⟩
  | raisedFirst | loweredFirst => exact .stay rfl rfl fun hd => ⟨rfl, hd.2⟩
  | storedFirst | loadedFirst =>
    refine .stay rfl rfl fun hd => ?_
    simp only [stack, size] at hd ⊢
    omega
  | storedLast | loadedLast | raisedLast | loweredLast =>
    refine .stay rfl rfl fun hd => ?_
    simp only [stack, size] at hd ⊢
    omega
  | producerUnlocked | consumerUnlocked => exact .leave rfl rfl id
  | _ => exact .same rfl rfl rfl

/-- The slots of `empty` that are free, held or in use stay 100 together. -/
theorem emptySlots_move (h : Move m x e m' y) (hx : Settled m τ x) :
    (m'.empty : Int) + emptySlots y + m'.count = m.empty + emptySlots x + m.count := by
  cases h with
  | raisedFirst | loweredFirst | raisedLast | loweredLast =>
    have hc := (hx rfl).1
    simp only [emptySlots] at hc ⊢
    omega
  | tookEmpty hpos | postedEmpty =>
    simp only [emptySlots]
    omega
  | _ => rfl

/-- Every move keeps the units of `full` and the items of the buffer in step. -/
theorem fullSlots_move (h : Move m x e m' y) (hx : Settled m τ x) :
    (m'.full : Int) + fullSlots y - m'.count = m.full + fullSlots x - m.count := by
  cases h with
  | raisedFirst | loweredFirst | raisedLast | loweredLast =>
    have hc := (hx rfl).1
    simp only [fullSlots] at hc ⊢
    omega
  | tookFull hpos | postedFull =>
    simp only [fullSlots]
    omega
  | _ => rfl

/-- The items that are still to come and to go are accounted for. -/
theorem left_move (h : Move m x e m' y) (hx : Settled m τ x) (hround : x.round ≤ ROUNDS) :
    m'.count + toInsert y - toRemove y = m.count + toInsert x - toRemove x := by
  cases h with
  | raisedFirst | loweredFirst | raisedLast | loweredLast =>
    have hc := (hx rfl).1
    simp only [toInsert, toRemove, Pos.round] at hc hround ⊢
    omega
  | producerEnded hlt | consumerEnded hlt =>
    simp only [toInsert, toRemove]
    omega
  | postedFull | postedEmpty =>
    simp only [toInsert, toRemove, Nat.add_sub_add_right]
  | _ => rfl

theorem round_move_le (h : Move m x e m' y) (hround : x.round ≤ ROUNDS) : y.round ≤ ROUNDS := by
  cases h with
  | produced rand hle => exact hle
  | began hle => exact hle
  | producerEnded | consumerEnded | postedFull | postedEmpty => exact Nat.zero_le _
  | _ => exact hround

/-- A step uses the index that the number of items says, and it is within the array. -/
theorem index_move (h : Move m x e m' y) (hx : Settled m τ x)
    (hempty : emptySlots x + m.count ≤ 100) (hfull : fullSlots x ≤ m.count) :
    e.InArray ∧ match e with
      | .stored index item =>
        index = size τ ∧ m'.buffer = Function.update m.buffer index item
      | .loaded index item =>
        index = size τ - 1 ∧ m'.buffer = m.buffer ∧ item = m.buffer index
      | .passed => m'.buffer = m.buffer := by
  cases h with
  | storedFirst | storedLast =>
    have hc := hx rfl
    simp only [stack, emptySlots, fullSlots] at hc hempty hfull
    exact ⟨⟨by omega, by omega⟩, by omega, rfl⟩
  | loadedFirst | loadedLast =>
    have hc := hx rfl
    simp only [stack, emptySlots, fullSlots] at hc hempty hfull
    exact ⟨⟨by omega, by omega⟩, by omega, rfl, rfl⟩
  | _ => exact ⟨trivial, rfl⟩

end Moves

/-! ## Runs -/

section Runs

variable {P : Type u} {C : Type v}

/-- The thread has no step. -/
def Blocked [DecidableEq P] [DecidableEq C] (s : State P C) (t : P ⊕ C) : Prop :=
  ∀ o, step s ⟨t, o⟩ = none

theorem gate_of_blocked [DecidableEq P] [DecidableEq C] {s : State P C} {t : P ⊕ C}
    (h : Blocked s t) (hf : (s.pos t).finished = false) : (s.pos t).gate s.shared = 0 := by
  by_contra hgate
  have hsome := @threadStep_isSome s.shared ⟨0, true⟩ _ hf (Nat.pos_of_ne_zero hgate)
  have hnone := h ⟨0, true⟩
  simp only [step, Option.map_eq_none_iff] at hnone
  rw [hnone] at hsome
  cases hsome

variable [Fintype P] [Fintype C]
variable {s s' : State P C} {e : Event} {τ : List Event}

/-- The accounts of a state with its history. -/
structure Accounts (τ : List Event) (s : State P C) : Prop where
  stack : stack.Inv s.shared.mutex (s.shared.count, size τ) s.pos
  empty : (s.shared.empty : Int) + tally emptySlots s.pos + s.shared.count = 100
  full : (s.shared.full : Int) + tally fullSlots s.pos = s.shared.count
  left : s.shared.count + tally toInsert s.pos = tally toRemove s.pos
  round : ∀ t, (s.pos t).round ≤ ROUNDS
  items : consumed τ + items s.shared.buffer (size τ) = inserted τ
  inArray : ∀ e ∈ τ, e.InArray

theorem tally_start (weight : Pos → Nat) :
    tally weight (start P C).pos = Fintype.card P * weight (.producer (.loop 1)) +
      Fintype.card C * weight (.consumer (.loop 1)) := by
  simp [tally, start]

theorem accounts_start (hcard : Fintype.card P = Fintype.card C) : Accounts [] (start P C) where
  stack := .start (by rintro (p | c) <;> rfl) rfl
  empty := by
    rw [tally_start]
    rfl
  full := by
    rw [tally_start]
    rfl
  left := by
    rw [tally_start, tally_start, hcard]
    simp [start, toInsert, toRemove]
  round := by
    rintro (p | c)
    · exact Nat.zero_le _
    · exact Nat.zero_le _
  items := rfl
  inArray := nofun

theorem Accounts.settled (h : Accounts τ s) (t : P ⊕ C) : Settled s.shared τ (s.pos t) :=
  h.stack.busy t

/-- With nobody midway `count` is the number of items. -/
theorem Accounts.count_eq_size (h : Accounts τ s) (hmid : ∀ t, (s.pos t).midway = false) :
    s.shared.count = size τ := by
  by_cases hmutex : s.shared.mutex = 0
  · obtain ⟨t, ht⟩ := h.stack.holder hmutex
    exact count_of_busy (h.stack.busy t ht) (hmid t)
  · have hone := h.stack.one
    exact h.stack.idle (by omega)

variable [DecidableEq P] [DecidableEq C]

/-- A thread holds no more slots than there are. -/
theorem Accounts.slots (h : Accounts τ s) (t : P ⊕ C) :
    emptySlots (s.pos t) + s.shared.count ≤ 100 ∧ fullSlots (s.pos t) ≤ s.shared.count := by
  have hempty := h.empty
  have hfull := h.full
  have hle := le_tally emptySlots s.pos t
  have hle' := le_tally fullSlots s.pos t
  omega

/-- Every step keeps the accounts right. -/
theorem Accounts.step {a : Action P C} (h : Accounts τ s) (hstep : step s a = some (e, s')) :
    Accounts (e :: τ) s' := by
  obtain ⟨t, y, hmove, hpos⟩ := move_of_step hstep
  have hset := h.settled t
  have hround := h.round t
  -- the units of `empty` and `full` that the thread holds put its index into the array
  obtain ⟨hin, hindex⟩ := index_move hmove hset (h.slots t).1 (h.slots t).2
  constructor
  case stack =>
    rw [hpos]
    exact h.stack.move (stack_move hmove)
  case empty =>
    have hold := h.empty
    have hmoved := emptySlots_move hmove hset
    have htally := tally_update emptySlots s.pos t y
    rw [hpos]
    omega
  case full =>
    have hold := h.full
    have hmoved := fullSlots_move hmove hset
    have htally := tally_update fullSlots s.pos t y
    rw [hpos]
    omega
  case left =>
    have hold := h.left
    have hmoved := left_move hmove hset hround
    have htally := tally_update toInsert s.pos t y
    have htally' := tally_update toRemove s.pos t y
    rw [hpos]
    omega
  case round =>
    intro u
    rw [hpos]
    by_cases hut : u = t
    · rw [hut, Function.update_self]
      exact round_move_le hmove hround
    · rw [Function.update_of_ne hut]
      exact h.round u
  case items =>
    have hold := h.items
    cases e with
    | stored index item =>
      obtain ⟨rfl, hbuffer⟩ := hindex
      simp only [consumed, inserted, size]
      rw [hbuffer, items_succ _ hin.1, items_update, Function.update_self, Multiset.add_cons, hold]
    | loaded index item =>
      obtain ⟨rfl, hbuffer, rfl⟩ := hindex
      have hsize : size τ - 1 + 1 = size τ := by omega
      simp only [consumed, inserted, size]
      rw [hbuffer, Multiset.cons_add, ← Multiset.add_cons, ← items_succ _ hin.1, hsize, hold]
    | passed =>
      simp only [consumed, inserted, size]
      rw [show s'.shared.buffer = s.shared.buffer from hindex, hold]
  case inArray =>
    intro f hf
    rcases List.mem_cons.1 hf with rfl | hf
    · exact hin
    · exact h.inArray f hf

/-- The accounts are right in every run. -/
theorem accounts_of_run (hcard : Fintype.card P = Fintype.card C)
    (hrun : Run (StepBy step) (start P C) τ s) : Accounts τ s := by
  refine hrun.invariant Accounts (accounts_start hcard) ?_
  rintro τ s e s' - h ⟨a, hstep⟩
  exact h.step hstep

/-- A state in which no unfinished thread has a step: all have finished. -/
theorem Accounts.finished (h : Accounts τ s)
    (hall : ∀ t, (s.pos t).finished = false → (s.pos t).gate s.shared = 0) (t : P ⊕ C) :
    (s.pos t).finished = true := by
  have hmutex : s.shared.mutex ≠ 0 := by
    intro hzero
    obtain ⟨u, hu⟩ := h.stack.holder hzero
    obtain ⟨hf, hgate⟩ := gate_of_holds s.shared hu
    have hnone := hall u hf
    omega
  have hrest : ∀ u, Resting s.shared (s.pos u) := fun u => resting hmutex (hall u)
  have hempty := h.empty
  have hfull := h.full
  have hleft := h.left
  rw [tally_eq_zero_iff.2 fun u => (hrest u).slots.1] at hempty
  rw [tally_eq_zero_iff.2 fun u => (hrest u).slots.2] at hfull
  have ht := hrest t
  generalize hx : s.pos t = x at ht
  cases ht with
  | producer | consumer => rfl
  | @noSlot i item hzero =>
    -- the array is full, so no consumer waits
    have hfull : s.shared.full ≠ 0 := by omega
    have hremoved : tally toRemove s.pos = 0 :=
      tally_eq_zero_iff.2 fun u => (hrest u).toRemove hfull
    omega
  | @noItem i hzero =>
    -- the array is empty, so no producer waits
    have hempty : s.shared.empty ≠ 0 := by omega
    have hinserted : tally toInsert s.pos = 0 :=
      tally_eq_zero_iff.2 fun u => (hrest u).toInsert hempty
    have hle := le_tally toRemove s.pos t
    have hround := h.round t
    rw [hx] at hle hround
    simp only [toRemove, Pos.round] at hle hround
    omega

/-- With as many producers as consumers, in every interleaving of their semaphore operations and
their accesses to `count` and `buffer`: the count and the indices are in range; one thread at most
is inside `insert_item` or `remove_item`; while none is midway between the two accesses there, the
items consumed and those in the array are the ones inserted; not all unfinished threads are blocked;
and the count ends at 0. -/
theorem bounded_buffer (hcard : Fintype.card P = Fintype.card C)
    (hrun : Run (StepBy step) (start P C) τ s) :
    (0 ≤ s.shared.count ∧ s.shared.count ≤ 100) ∧ (∀ e ∈ τ, e.InArray) ∧
      (∀ t u, (s.pos t).inside = true → (s.pos u).inside = true → t = u) ∧
      ((∀ t, (s.pos t).midway = false) →
        consumed τ + items s.shared.buffer s.shared.count = inserted τ) ∧
      ((∃ t, (s.pos t).finished = false) → ∃ t, (s.pos t).finished = false ∧ ¬ Blocked s t) ∧
      ((∀ t, (s.pos t).finished = true) → s.shared.count = 0) := by
  have h := accounts_of_run hcard hrun
  refine ⟨?_, h.inArray, ?_, ?_, ?_, ?_⟩
  · have hempty := h.empty
    have hfull := h.full
    omega
  · intro t u ht hu
    exact h.stack.unique (holds_of_inside ht) (holds_of_inside hu)
  · intro hmid
    rw [h.count_eq_size hmid]
    exact h.items
  · rintro ⟨t, ht⟩
    by_contra hnone
    have hall : ∀ u, (s.pos u).finished = false → (s.pos u).gate s.shared = 0 := fun u hu =>
      gate_of_blocked (not_not.1 fun hb => hnone ⟨u, hu, hb⟩) hu
    rw [h.finished hall t] at ht
    cases ht
  · intro hall
    have hleft := h.left
    rw [tally_eq_zero_iff.2 fun t => (left_of_finished (hall t)).1,
      tally_eq_zero_iff.2 fun t => (left_of_finished (hall t)).2] at hleft
    omega

end Runs

/-- The producer's first steps, up to the first of its two stores. -/
def firstInsert (rand : Nat) (countFirst : Bool) : List (Action (Fin 1) (Fin 1)) :=
  List.replicate 5 ⟨.inl 0, rand, countFirst⟩

/-- A producer and a consumer pass an item on. -/
theorem bounded_buffer_one :
    ∃ (τ : List Event) (s : State (Fin 1) (Fin 1)), Run (StepBy step) (start _ _) τ s ∧
      s.shared.count = 0 ∧ consumed τ = {44} ∧
      consumed τ + items s.shared.buffer s.shared.count = inserted τ := by
  let l : List (Action (Fin 1) (Fin 1)) :=
    firstInsert 300 false ++ List.replicate 3 ⟨.inl 0, 0, true⟩ ++
      List.replicate 7 ⟨.inr 0, 0, true⟩
  let r := (perform step [] (start (Fin 1) (Fin 1)) l).get rfl
  have hrun : Run (StepBy step) (start _ _) r.1 r.2 := run_of_get rfl
  obtain ⟨-, -, -, hitems, -, -⟩ := bounded_buffer rfl hrun
  exact ⟨r.1, r.2, hrun, rfl, rfl, hitems (by decide)⟩

/-- When the count is stored first, the array seems to have an item that nobody has inserted. -/
theorem items_not_conserved_midway :
    ¬ ∀ (τ : List Event) (s : State (Fin 1) (Fin 1)), Run (StepBy step) (start _ _) τ s →
      consumed τ + items s.shared.buffer s.shared.count = inserted τ := by
  intro h
  let r := (perform step [] (start (Fin 1) (Fin 1)) (firstInsert 300 true)).get rfl
  have hrun : Run (StepBy step) (start _ _) r.1 r.2 := run_of_get rfl
  have hcard := congrArg Multiset.card (h r.1 r.2 hrun)
  cases hcard

end EE516.ProCon
