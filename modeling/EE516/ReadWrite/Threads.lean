import EE516.Foundations.Run
import Mathlib.Logic.Function.Basic

/-!
# Readers and writers

The threads of `hw2/read_write.c`, one access of a semaphore, of `reader_num` or of the database at
a step. A thread waits at a semaphore of value 0 by having no step there. Every thread loops for
ever; the printing, the sleeping and the tossing of coins between the rounds are left out.
-/

set_option autoImplicit false

namespace EE516.ReadWrite

universe u v

/-- The global variables. -/
structure Shared where
  mutex : Nat
  db : Nat
  reader_num : Int
  db_file : Int

/-- The place of a reader; `c` is the value of `reader_num` that an increment or decrement has
read. -/
inductive ReaderPos where
  | enterWait
  | increase
  | increasing (c : Int)
  /-- the test `reader_num == 1` -/
  | testOne
  | waitDb
  | enterPost
  /-- in `read_db` -/
  | read
  | leaveWait
  | decrease
  | decreasing (c : Int)
  /-- the test `reader_num == 0` -/
  | testZero
  | postDb
  | leavePost

/-- The place of a writer. -/
inductive WriterPos where
  | waitDb
  /-- in `write_db` -/
  | write
  | postDb

/-- The place of a thread. -/
inductive Pos where
  | reader (x : ReaderPos)
  | writer (x : WriterPos)

/-- What a step does to the database. -/
inductive Event where
  | read (data : Int)
  | wrote (value : Int)
  | passed
  deriving DecidableEq

/-- The conversion to `char`. -/
def toChar (v : Int) : Int := v.bmod 256

/-- The next step of a reader. -/
def readerStep (m : Shared) : ReaderPos → Option (Event × Shared × ReaderPos)
  | .enterWait =>
    if 0 < m.mutex then some (.passed, { m with mutex := m.mutex - 1 }, .increase) else none
  | .increase => some (.passed, m, .increasing m.reader_num)
  | .increasing c => some (.passed, { m with reader_num := c + 1 }, .testOne)
  | .testOne => some (.passed, m, if m.reader_num = 1 then .waitDb else .enterPost)
  | .waitDb => if 0 < m.db then some (.passed, { m with db := m.db - 1 }, .enterPost) else none
  | .enterPost => some (.passed, { m with mutex := m.mutex + 1 }, .read)
  | .read => some (.read m.db_file, m, .leaveWait)
  | .leaveWait =>
    if 0 < m.mutex then some (.passed, { m with mutex := m.mutex - 1 }, .decrease) else none
  | .decrease => some (.passed, m, .decreasing m.reader_num)
  | .decreasing c => some (.passed, { m with reader_num := c - 1 }, .testZero)
  | .testZero => some (.passed, m, if m.reader_num = 0 then .postDb else .leavePost)
  | .postDb => some (.passed, { m with db := m.db + 1 }, .leavePost)
  | .leavePost => some (.passed, { m with mutex := m.mutex + 1 }, .enterWait)

/-- The next step of the writer with the number `id`. -/
def writerStep (m : Shared) (id : Int) : WriterPos → Option (Event × Shared × WriterPos)
  | .waitDb => if 0 < m.db then some (.passed, { m with db := m.db - 1 }, .write) else none
  | .write => some (.wrote (toChar id), { m with db_file := toChar id }, .postDb)
  | .postDb => some (.passed, { m with db := m.db + 1 }, .waitDb)

/-- The next step of a thread with the number `id`. -/
def threadStep (m : Shared) (id : Int) : Pos → Option (Event × Shared × Pos)
  | .reader x => (readerStep m x).map fun r => (r.1, r.2.1, .reader r.2.2)
  | .writer x => (writerStep m id x).map fun r => (r.1, r.2.1, .writer r.2.2)

/-- What a step of a thread at a position can do. -/
inductive Move (m : Shared) : Pos → Event → Shared → Pos → Prop
  | enterLocked :
      0 < m.mutex →
        Move m (.reader .enterWait) .passed { m with mutex := m.mutex - 1 } (.reader .increase)
  | increaseRead : Move m (.reader .increase) .passed m (.reader (.increasing m.reader_num))
  | increased {c : Int} :
      Move m (.reader (.increasing c)) .passed { m with reader_num := c + 1 } (.reader .testOne)
  | foundOne : m.reader_num = 1 → Move m (.reader .testOne) .passed m (.reader .waitDb)
  | foundMore : m.reader_num ≠ 1 → Move m (.reader .testOne) .passed m (.reader .enterPost)
  | readerTookDb :
      0 < m.db →
        Move m (.reader .waitDb) .passed { m with db := m.db - 1 } (.reader .enterPost)
  | entered :
      Move m (.reader .enterPost) .passed { m with mutex := m.mutex + 1 } (.reader .read)
  | read : Move m (.reader .read) (.read m.db_file) m (.reader .leaveWait)
  | leaveLocked :
      0 < m.mutex →
        Move m (.reader .leaveWait) .passed { m with mutex := m.mutex - 1 } (.reader .decrease)
  | decreaseRead : Move m (.reader .decrease) .passed m (.reader (.decreasing m.reader_num))
  | decreased {c : Int} :
      Move m (.reader (.decreasing c)) .passed { m with reader_num := c - 1 } (.reader .testZero)
  | foundZero : m.reader_num = 0 → Move m (.reader .testZero) .passed m (.reader .postDb)
  | foundOthers : m.reader_num ≠ 0 → Move m (.reader .testZero) .passed m (.reader .leavePost)
  | readerPostedDb :
      Move m (.reader .postDb) .passed { m with db := m.db + 1 } (.reader .leavePost)
  | left : Move m (.reader .leavePost) .passed { m with mutex := m.mutex + 1 } (.reader .enterWait)
  | writerTookDb :
      0 < m.db → Move m (.writer .waitDb) .passed { m with db := m.db - 1 } (.writer .write)
  | wrote (id : Int) :
      Move m (.writer .write) (.wrote (toChar id)) { m with db_file := toChar id }
        (.writer .postDb)
  | writerPostedDb :
      Move m (.writer .postDb) .passed { m with db := m.db + 1 } (.writer .waitDb)

variable {m m' : Shared} {id : Int} {x y : Pos} {e : Event}

theorem move_of_readerStep {x y : ReaderPos} (h : readerStep m x = some (e, m', y)) :
    Move m (.reader x) e m' (.reader y) := by
  cases x with
  | enterWait =>
    simp only [readerStep] at h
    split at h
    · cases h
      exact .enterLocked ‹_›
    · cases h
  | increase =>
    cases h
    exact .increaseRead
  | increasing c =>
    cases h
    exact .increased
  | testOne =>
    by_cases hone : m.reader_num = 1
    · simp only [readerStep, if_pos hone] at h
      cases h
      exact .foundOne hone
    · simp only [readerStep, if_neg hone] at h
      cases h
      exact .foundMore hone
  | waitDb =>
    simp only [readerStep] at h
    split at h
    · cases h
      exact .readerTookDb ‹_›
    · cases h
  | enterPost =>
    cases h
    exact .entered
  | read =>
    cases h
    exact .read
  | leaveWait =>
    simp only [readerStep] at h
    split at h
    · cases h
      exact .leaveLocked ‹_›
    · cases h
  | decrease =>
    cases h
    exact .decreaseRead
  | decreasing c =>
    cases h
    exact .decreased
  | testZero =>
    by_cases hzero : m.reader_num = 0
    · simp only [readerStep, if_pos hzero] at h
      cases h
      exact .foundZero hzero
    · simp only [readerStep, if_neg hzero] at h
      cases h
      exact .foundOthers hzero
  | postDb =>
    cases h
    exact .readerPostedDb
  | leavePost =>
    cases h
    exact .left

theorem move_of_writerStep {x y : WriterPos} (h : writerStep m id x = some (e, m', y)) :
    Move m (.writer x) e m' (.writer y) := by
  cases x with
  | waitDb =>
    simp only [writerStep] at h
    split at h
    · cases h
      exact .writerTookDb ‹_›
    · cases h
  | write =>
    cases h
    exact .wrote id
  | postDb =>
    cases h
    exact .writerPostedDb

theorem move_of_threadStep (h : threadStep m id x = some (e, m', y)) : Move m x e m' y := by
  cases x with
  | reader x =>
    obtain ⟨⟨e₁, m₁, y₁⟩, hx, heq⟩ := Option.map_eq_some_iff.1 h
    cases heq
    exact move_of_readerStep hx
  | writer x =>
    obtain ⟨⟨e₁, m₁, y₁⟩, hx, heq⟩ := Option.map_eq_some_iff.1 h
    cases heq
    exact move_of_writerStep hx

/-! ## The program -/

/-- The program's state; the threads are the readers `R` and the writers `W`. -/
structure State (R : Type u) (W : Type v) where
  shared : Shared
  pos : R ⊕ W → Pos

variable {R : Type u} {W : Type v}

/-- `main` has initialised the semaphores and the threads begin their first rounds. -/
def start (R : Type u) (W : Type v) : State R W where
  shared := ⟨1, 1, 0, 0⟩
  pos := Sum.elim (fun _ => .reader .enterWait) fun _ => .writer .waitDb

variable [DecidableEq R] [DecidableEq W]

/-- The next step of the thread `t`; `id` has the numbers that `main` gives the threads. -/
def step (id : R ⊕ W → Int) (s : State R W) (t : R ⊕ W) : Option (Event × State R W) :=
  (threadStep s.shared (id t) (s.pos t)).map fun r =>
    (r.1, ⟨r.2.1, Function.update s.pos t r.2.2⟩)

theorem move_of_step {id : R ⊕ W → Int} {s s' : State R W} {t : R ⊕ W}
    (h : step id s t = some (e, s')) :
    ∃ y, Move s.shared (s.pos t) e s'.shared y ∧ s'.pos = Function.update s.pos t y := by
  obtain ⟨⟨e₁, m₁, y⟩, hx, heq⟩ := Option.map_eq_some_iff.1 h
  cases heq
  exact ⟨y, move_of_threadStep hx, rfl⟩

end EE516.ReadWrite
