import EE516.Foundations.Run
import Mathlib.Data.Multiset.Range
import Mathlib.Logic.Function.Basic

/-!
# Producers and consumers

The threads of `hw2/pro_con.c`, one access of a semaphore, of `count` or of `buffer` at a step.
`buffer[count++] = v` reads `count` and then stores the new count and the item, and C leaves open
which of the two comes first; so it is with the count and the load of `buffer[--count]`. A thread
waits at a semaphore of value 0 by having no step there. The printing, the sleeping and
`consume_item`, which computes nothing that is used, are left out.
-/

set_option autoImplicit false

namespace EE516.ProCon

universe u v

/-- The global variables: the three semaphores, the array and its stack pointer. -/
structure Shared where
  mutex : Nat
  empty : Nat
  full : Nat
  buffer : Int → Int
  count : Int

/-- The number of rounds of a thread. -/
def ROUNDS : Nat := 100

/-- The place of a producer in its round `i`; `c` is the `count` that `insert_item` read. -/
inductive ProducerPos where
  /-- the test `i <= 100` -/
  | loop (i : Nat)
  | waitEmpty (i : Nat) (item : Int)
  | waitMutex (i : Nat) (item : Int)
  /-- the call of `insert_item` -/
  | insert (i : Nat) (item : Int)
  /-- `count` is read, and neither the count nor the item is stored -/
  | inserting (i : Nat) (item c : Int)
  /-- the count is stored, the item is not -/
  | storingItem (i : Nat) (item c : Int)
  /-- the item is stored, the count is not -/
  | storingCount (i : Nat) (c : Int)
  | postMutex (i : Nat)
  | postFull (i : Nat)
  | finished

/-- The place of a consumer in its round `i`; `c` is the `count` that `remove_item` read. -/
inductive ConsumerPos where
  /-- the test `i <= 100` -/
  | loop (i : Nat)
  | waitFull (i : Nat)
  | waitMutex (i : Nat)
  /-- the call of `remove_item` -/
  | remove (i : Nat)
  /-- `count` is read, the count is not stored and the item not loaded -/
  | removing (i : Nat) (c : Int)
  /-- the count is stored, the item is not loaded -/
  | loadingItem (i : Nat) (c : Int)
  /-- the item is loaded, the count is not stored -/
  | storingCount (i : Nat) (c : Int)
  | postMutex (i : Nat)
  | postEmpty (i : Nat)
  | finished

/-- The place of a thread. -/
inductive Pos where
  | producer (x : ProducerPos)
  | consumer (x : ConsumerPos)

/-- What a step does to the items: it stores one in the array, loads one from it or neither. -/
inductive Event where
  | stored (index item : Int)
  | loaded (index item : Int)
  | passed
  deriving DecidableEq

/-- What a step leaves open: the value that `rand` draws, and whether the count is stored before the
array is accessed. -/
structure Choice where
  rand : Nat
  countFirst : Bool

/-- The item of a producer. -/
def produce_item (rand : Nat) : Int := ((rand % 256 : Nat) : Int)

/-- The next step of a producer. -/
def producerStep (m : Shared) (o : Choice) : ProducerPos → Option (Event × Shared × ProducerPos)
  | .loop i =>
    if i ≤ ROUNDS then some (.passed, m, .waitEmpty i (produce_item o.rand))
    else some (.passed, m, .finished)
  | .waitEmpty i item =>
    if 0 < m.empty then some (.passed, { m with empty := m.empty - 1 }, .waitMutex i item)
    else none
  | .waitMutex i item =>
    if 0 < m.mutex then some (.passed, { m with mutex := m.mutex - 1 }, .insert i item)
    else none
  | .insert i item => some (.passed, m, .inserting i item m.count)
  | .inserting i item c =>
    if o.countFirst then some (.passed, { m with count := c + 1 }, .storingItem i item c)
    else
      some (.stored c item, { m with buffer := Function.update m.buffer c item },
        .storingCount i c)
  | .storingItem i item c =>
    some (.stored c item, { m with buffer := Function.update m.buffer c item }, .postMutex i)
  | .storingCount i c => some (.passed, { m with count := c + 1 }, .postMutex i)
  | .postMutex i => some (.passed, { m with mutex := m.mutex + 1 }, .postFull i)
  | .postFull i => some (.passed, { m with full := m.full + 1 }, .loop (i + 1))
  | .finished => none

/-- The next step of a consumer. -/
def consumerStep (m : Shared) (o : Choice) : ConsumerPos → Option (Event × Shared × ConsumerPos)
  | .loop i =>
    if i ≤ ROUNDS then some (.passed, m, .waitFull i)
    else some (.passed, m, .finished)
  | .waitFull i =>
    if 0 < m.full then some (.passed, { m with full := m.full - 1 }, .waitMutex i)
    else none
  | .waitMutex i =>
    if 0 < m.mutex then some (.passed, { m with mutex := m.mutex - 1 }, .remove i)
    else none
  | .remove i => some (.passed, m, .removing i m.count)
  | .removing i c =>
    if o.countFirst then some (.passed, { m with count := c - 1 }, .loadingItem i c)
    else some (.loaded (c - 1) (m.buffer (c - 1)), m, .storingCount i c)
  | .loadingItem i c => some (.loaded (c - 1) (m.buffer (c - 1)), m, .postMutex i)
  | .storingCount i c => some (.passed, { m with count := c - 1 }, .postMutex i)
  | .postMutex i => some (.passed, { m with mutex := m.mutex + 1 }, .postEmpty i)
  | .postEmpty i => some (.passed, { m with empty := m.empty + 1 }, .loop (i + 1))
  | .finished => none

/-- The next step of a thread. -/
def threadStep (m : Shared) (o : Choice) : Pos → Option (Event × Shared × Pos)
  | .producer x => (producerStep m o x).map fun r => (r.1, r.2.1, .producer r.2.2)
  | .consumer x => (consumerStep m o x).map fun r => (r.1, r.2.1, .consumer r.2.2)

/-- What a step of a thread at a position can do. -/
inductive Move (m : Shared) : Pos → Event → Shared → Pos → Prop
  | produced {i : Nat} (rand : Nat) :
      i ≤ ROUNDS →
        Move m (.producer (.loop i)) .passed m (.producer (.waitEmpty i (produce_item rand)))
  | producerEnded {i : Nat} :
      ¬ i ≤ ROUNDS → Move m (.producer (.loop i)) .passed m (.producer .finished)
  | tookEmpty {i : Nat} {item : Int} :
      0 < m.empty →
        Move m (.producer (.waitEmpty i item)) .passed { m with empty := m.empty - 1 }
          (.producer (.waitMutex i item))
  | producerLocked {i : Nat} {item : Int} :
      0 < m.mutex →
        Move m (.producer (.waitMutex i item)) .passed { m with mutex := m.mutex - 1 }
          (.producer (.insert i item))
  | insertRead {i : Nat} {item : Int} :
      Move m (.producer (.insert i item)) .passed m (.producer (.inserting i item m.count))
  | raisedFirst {i : Nat} {item c : Int} :
      Move m (.producer (.inserting i item c)) .passed { m with count := c + 1 }
        (.producer (.storingItem i item c))
  | storedFirst {i : Nat} {item c : Int} :
      Move m (.producer (.inserting i item c)) (.stored c item)
        { m with buffer := Function.update m.buffer c item } (.producer (.storingCount i c))
  | storedLast {i : Nat} {item c : Int} :
      Move m (.producer (.storingItem i item c)) (.stored c item)
        { m with buffer := Function.update m.buffer c item } (.producer (.postMutex i))
  | raisedLast {i : Nat} {c : Int} :
      Move m (.producer (.storingCount i c)) .passed { m with count := c + 1 }
        (.producer (.postMutex i))
  | producerUnlocked {i : Nat} :
      Move m (.producer (.postMutex i)) .passed { m with mutex := m.mutex + 1 }
        (.producer (.postFull i))
  | postedFull {i : Nat} :
      Move m (.producer (.postFull i)) .passed { m with full := m.full + 1 }
        (.producer (.loop (i + 1)))
  | began {i : Nat} :
      i ≤ ROUNDS → Move m (.consumer (.loop i)) .passed m (.consumer (.waitFull i))
  | consumerEnded {i : Nat} :
      ¬ i ≤ ROUNDS → Move m (.consumer (.loop i)) .passed m (.consumer .finished)
  | tookFull {i : Nat} :
      0 < m.full →
        Move m (.consumer (.waitFull i)) .passed { m with full := m.full - 1 }
          (.consumer (.waitMutex i))
  | consumerLocked {i : Nat} :
      0 < m.mutex →
        Move m (.consumer (.waitMutex i)) .passed { m with mutex := m.mutex - 1 }
          (.consumer (.remove i))
  | removeRead {i : Nat} :
      Move m (.consumer (.remove i)) .passed m (.consumer (.removing i m.count))
  | loweredFirst {i : Nat} {c : Int} :
      Move m (.consumer (.removing i c)) .passed { m with count := c - 1 }
        (.consumer (.loadingItem i c))
  | loadedFirst {i : Nat} {c : Int} :
      Move m (.consumer (.removing i c)) (.loaded (c - 1) (m.buffer (c - 1))) m
        (.consumer (.storingCount i c))
  | loadedLast {i : Nat} {c : Int} :
      Move m (.consumer (.loadingItem i c)) (.loaded (c - 1) (m.buffer (c - 1))) m
        (.consumer (.postMutex i))
  | loweredLast {i : Nat} {c : Int} :
      Move m (.consumer (.storingCount i c)) .passed { m with count := c - 1 }
        (.consumer (.postMutex i))
  | consumerUnlocked {i : Nat} :
      Move m (.consumer (.postMutex i)) .passed { m with mutex := m.mutex + 1 }
        (.consumer (.postEmpty i))
  | postedEmpty {i : Nat} :
      Move m (.consumer (.postEmpty i)) .passed { m with empty := m.empty + 1 }
        (.consumer (.loop (i + 1)))

variable {m m' : Shared} {o : Choice} {x y : Pos} {e : Event}

theorem move_of_producerStep {x y : ProducerPos} (h : producerStep m o x = some (e, m', y)) :
    Move m (.producer x) e m' (.producer y) := by
  cases x with
  | loop i =>
    simp only [producerStep] at h
    split at h
    · cases h
      exact .produced _ ‹_›
    · cases h
      exact .producerEnded ‹_›
  | waitEmpty i item =>
    simp only [producerStep] at h
    split at h
    · cases h
      exact .tookEmpty ‹_›
    · cases h
  | waitMutex i item =>
    simp only [producerStep] at h
    split at h
    · cases h
      exact .producerLocked ‹_›
    · cases h
  | insert i item =>
    cases h
    exact .insertRead
  | inserting i item c =>
    simp only [producerStep] at h
    split at h
    · cases h
      exact .raisedFirst
    · cases h
      exact .storedFirst
  | storingItem i item c =>
    cases h
    exact .storedLast
  | storingCount i c =>
    cases h
    exact .raisedLast
  | postMutex i =>
    cases h
    exact .producerUnlocked
  | postFull i =>
    cases h
    exact .postedFull
  | finished => cases h

theorem move_of_consumerStep {x y : ConsumerPos} (h : consumerStep m o x = some (e, m', y)) :
    Move m (.consumer x) e m' (.consumer y) := by
  cases x with
  | loop i =>
    simp only [consumerStep] at h
    split at h
    · cases h
      exact .began ‹_›
    · cases h
      exact .consumerEnded ‹_›
  | waitFull i =>
    simp only [consumerStep] at h
    split at h
    · cases h
      exact .tookFull ‹_›
    · cases h
  | waitMutex i =>
    simp only [consumerStep] at h
    split at h
    · cases h
      exact .consumerLocked ‹_›
    · cases h
  | remove i =>
    cases h
    exact .removeRead
  | removing i c =>
    simp only [consumerStep] at h
    split at h
    · cases h
      exact .loweredFirst
    · cases h
      exact .loadedFirst
  | loadingItem i c =>
    cases h
    exact .loadedLast
  | storingCount i c =>
    cases h
    exact .loweredLast
  | postMutex i =>
    cases h
    exact .consumerUnlocked
  | postEmpty i =>
    cases h
    exact .postedEmpty
  | finished => cases h

theorem move_of_threadStep (h : threadStep m o x = some (e, m', y)) : Move m x e m' y := by
  cases x with
  | producer x =>
    obtain ⟨⟨e₁, m₁, y₁⟩, hx, heq⟩ := Option.map_eq_some_iff.1 h
    cases heq
    exact move_of_producerStep hx
  | consumer x =>
    obtain ⟨⟨e₁, m₁, y₁⟩, hx, heq⟩ := Option.map_eq_some_iff.1 h
    cases heq
    exact move_of_consumerStep hx

/-! ## The program -/

/-- The program's state; the threads are the producers `P` and the consumers `C`. -/
structure State (P : Type u) (C : Type v) where
  shared : Shared
  pos : P ⊕ C → Pos

/-- One step of one thread. -/
structure Action (P : Type u) (C : Type v) where
  thread : P ⊕ C
  choice : Choice

variable {P : Type u} {C : Type v}

/-- `main` has initialised the semaphores and the threads begin their first rounds. -/
def start (P : Type u) (C : Type v) : State P C where
  shared := ⟨1, 100, 0, fun _ => 0, 0⟩
  pos := Sum.elim (fun _ => .producer (.loop 1)) fun _ => .consumer (.loop 1)

variable [DecidableEq P] [DecidableEq C]

/-- One thread takes its next step. -/
def step (s : State P C) (a : Action P C) : Option (Event × State P C) :=
  (threadStep s.shared a.choice (s.pos a.thread)).map fun r =>
    (r.1, ⟨r.2.1, Function.update s.pos a.thread r.2.2⟩)

theorem move_of_step {s s' : State P C} {a : Action P C} (h : step s a = some (e, s')) :
    ∃ t y, Move s.shared (s.pos t) e s'.shared y ∧ s'.pos = Function.update s.pos t y := by
  obtain ⟨⟨e₁, m₁, y⟩, hx, heq⟩ := Option.map_eq_some_iff.1 h
  cases heq
  exact ⟨a.thread, y, move_of_threadStep hx, rfl⟩

end EE516.ProCon
