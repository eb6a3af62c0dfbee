import EE516.Foundations.Monitor
import EE516.ReadWrite.Threads

/-!
# Exclusion of readers and writers

The semaphore `mutex` makes a monitor of `reader_num`, of the number of readers that have entered
and of the readers' hold on `db` (`door`): while nobody is inside the monitor, the readers hold `db`
exactly when one has entered. The reader that takes `db` for them and the one that gives it back
may be different threads, so the hold is not a position's but what is left of `db` when the writers'
holds are taken away.
-/

set_option autoImplicit false

namespace EE516.ReadWrite

open EE516.Foundations

universe u v

/-! ## Positions -/

/-- The reader has raised `reader_num` and not yet lowered it. -/
def Pos.entered : Pos → Bool
  | .reader .testOne | .reader .waitDb | .reader .enterPost => true
  | .reader .read | .reader .leaveWait => true
  | .reader .decrease | .reader (.decreasing _) => true
  | _ => false

/-- The writer is between its `sem_wait(&db)` and its `sem_post(&db)`. -/
def Pos.ownsDb : Pos → Bool
  | .writer .write | .writer .postDb => true
  | _ => false

/-- The thread is between its wait for `mutex` and its post. -/
def Pos.holdsMutex : Pos → Bool
  | .reader .increase | .reader (.increasing _) | .reader .testOne => true
  | .reader .waitDb | .reader .enterPost => true
  | .reader .decrease | .reader (.decreasing _) | .reader .testZero => true
  | .reader .postDb | .reader .leavePost => true
  | _ => false

/-- What the monitor guards: `reader_num`, the number of readers that have entered, and 0 while the
readers hold `db`, else 1. -/
structure Door where
  num : Int
  inside : Int
  free : Int

/-- The readers hold `db` exactly when more than `k` of them have entered. -/
def Door.Fits (d : Door) (k : Int) : Prop :=
  d.num = d.inside ∧ k ≤ d.num ∧ (k < d.num → d.free = 0) ∧ (d.num ≤ k → d.free = 1)

/-- The monitor of `mutex`. -/
def door : Monitor Pos Door where
  holds := Pos.holdsMutex
  idle d := d.Fits 0
  busy d
    | .reader (.increasing c) => d.Fits 0 ∧ d.num = c
    | .reader .testOne => d.Fits 1
    | .reader .waitDb => d.Fits 1 ∧ d.num = 1
    | .reader .enterPost => d.Fits 0 ∧ 1 ≤ d.num
    | .reader .decrease => d.Fits 0 ∧ 1 ≤ d.num
    | .reader (.decreasing c) => d.Fits 0 ∧ 1 ≤ d.num ∧ d.num = c
    | .reader .testZero => d.Fits (-1) ∧ 0 ≤ d.num
    | .reader .postDb => d.Fits (-1) ∧ d.num = 0
    | _ => d.Fits 0

/-- One for a reader that has entered. -/
def entries (x : Pos) : Nat := x.entered.toNat

/-- One for a writer that holds `db`. -/
def writes (x : Pos) : Nat := x.ownsDb.toNat

/-- The value of the semaphore that the thread's next step waits at, or 1 when it waits at none. -/
def Pos.gate (m : Shared) : Pos → Nat
  | .reader .enterWait | .reader .leaveWait => m.mutex
  | .reader .waitDb | .writer .waitDb => m.db
  | _ => 1

/-- A thread can go on if the semaphore that it waits for is free. -/
theorem threadStep_isSome {m : Shared} {id : Int} {x : Pos} (hgate : 0 < x.gate m) :
    (threadStep m id x).isSome = true := by
  cases x with
  | reader x =>
    cases x with
    | enterWait | leaveWait => simp [threadStep, readerStep, show 0 < m.mutex from hgate]
    | waitDb => simp [threadStep, readerStep, show 0 < m.db from hgate]
    | _ => rfl
  | writer x =>
    cases x with
    | waitDb => simp [threadStep, writerStep, show 0 < m.db from hgate]
    | _ => rfl

/-! ## One step -/

section Moves

variable {m m' : Shared} {x y : Pos} {e : Event} {n w : Int}

/-- The monitor's data in a state with `n` readers that have entered and `w` writers that hold
`db`. -/
def Shared.door (m : Shared) (n w : Int) : Door := ⟨m.reader_num, n, m.db + w⟩

theorem door_move (h : Move m x e m' y) (hn : entries x ≤ n) :
    door.Move m.mutex (m.door n w) x m'.mutex
      (m'.door (n + entries y - entries x) (w + writes y - writes x)) y := by
  cases h with
  | enterLocked hpos | leaveLocked hpos =>
    obtain ⟨k, hk⟩ : ∃ k, m.mutex = k + 1 := ⟨m.mutex - 1, by omega⟩
    simp only [hk, Nat.add_sub_cancel]
    refine .enter rfl rfl fun hd => ?_
    simp only [door, Door.Fits, Shared.door, entries, writes, Pos.entered, Pos.ownsDb,
      Bool.toNat_true, Bool.toNat_false] at hn hd ⊢
    omega
  | entered | left =>
    refine .leave rfl rfl fun hd => ?_
    simp only [door, Door.Fits, Shared.door, entries, writes, Pos.entered, Pos.ownsDb,
      Bool.toNat_true, Bool.toNat_false] at hn hd ⊢
    omega
  | read | wrote =>
    refine .same rfl rfl ?_
    simp [Shared.door, entries, writes, Pos.entered, Pos.ownsDb]
  | writerTookDb hpos | writerPostedDb =>
    refine .same rfl rfl ?_
    simp only [Shared.door, entries, writes, Pos.entered, Pos.ownsDb, Door.mk.injEq,
      Bool.toNat_true, Bool.toNat_false, true_and]
    omega
  | _ =>
    refine .stay rfl rfl fun hd => ?_
    simp only [door, Door.Fits, Shared.door, entries, writes, Pos.entered, Pos.ownsDb,
      Bool.toNat_true, Bool.toNat_false, and_true] at hn hd ⊢
    omega

/-- Whoever is in the monitor, `db` is nobody's, one writer's or the readers'. -/
theorem free_le_of_busy {d : Door} (h : door.busy d x) : d.free ≤ 1 := by
  cases x with
  | reader x =>
    cases x <;> simp only [door, Door.Fits] at h <;> omega
  | writer x =>
    simp only [door, Door.Fits] at h
    omega

/-- While a reader is in the monitor, the readers hold `db` if another one has entered. -/
theorem free_of_busy {d : Door} (h : door.busy d x) (hin : entries x + 1 ≤ d.inside) :
    d.free = 0 := by
  cases x with
  | reader x =>
    cases x <;> simp only [door, Door.Fits, entries, Pos.entered, Bool.toNat_true,
      Bool.toNat_false] at h hin <;> omega
  | writer x =>
    simp only [door, Door.Fits, entries, Pos.entered] at h hin
    omega

/-- A thread in the monitor that waits, waits for `db` with no reader behind it. -/
theorem waiting_of_holds {d : Door} (hx : x.holdsMutex = true) (hgate : x.gate m = 0)
    (h : door.busy d x) : m.db = 0 ∧ d.free = 1 := by
  cases x with
  | reader x =>
    cases x with
    | waitDb =>
      simp only [door, Door.Fits] at h
      exact ⟨hgate, by omega⟩
    | enterWait | leaveWait | read => cases hx
    | _ => cases hgate
  | writer x => cases x <;> cases hx

/-- A thread outside the monitor that waits while `mutex` is free is a writer that waits for
`db`. -/
theorem waiting_of_not_holds (hmutex : m.mutex ≠ 0) (hx : x.holdsMutex = false)
    (hgate : x.gate m = 0) : x = .writer .waitDb ∧ m.db = 0 := by
  cases x with
  | reader x =>
    cases x with
    | enterWait | leaveWait => exact absurd hgate hmutex
    | read => cases hgate
    | _ => cases hx
  | writer x =>
    cases x with
    | waitDb => exact ⟨rfl, hgate⟩
    | write | postDb => cases hgate

/-- A thread that owns `db` stands before an open gate. -/
theorem gate_of_ownsDb (m : Shared) (hx : x.ownsDb = true) : x.gate m = 1 := by
  cases x with
  | reader x => cases x <;> cases hx
  | writer x => cases x <;> first | rfl | cases hx

end Moves

/-! ## Runs -/

section Runs

variable {R : Type u} {W : Type v}

/-- The thread has no step. -/
def Blocked [DecidableEq R] [DecidableEq W] (id : R ⊕ W → Int) (s : State R W) (t : R ⊕ W) : Prop :=
  step id s t = none

/-- A blocked thread stands before a semaphore that is taken. -/
theorem gate_of_blocked [DecidableEq R] [DecidableEq W] {id : R ⊕ W → Int} {s : State R W}
    {t : R ⊕ W} (h : Blocked id s t) : (s.pos t).gate s.shared = 0 := by
  by_contra hgate
  have hsome := @threadStep_isSome s.shared (id t) _ (Nat.pos_of_ne_zero hgate)
  simp only [Blocked, step, Option.map_eq_none_iff] at h
  rw [h] at hsome
  cases hsome

variable [Fintype R] [Fintype W]
variable {id : R ⊕ W → Int} {s s' : State R W} {e : Event} {τ : List Event} {t u : R ⊕ W}

/-- The monitor's data in a state. -/
def State.door (s : State R W) : Door :=
  s.shared.door (tally entries s.pos) (tally writes s.pos)

/-- The monitor's invariant. -/
def Guarded (s : State R W) : Prop := door.Inv s.shared.mutex s.door s.pos

theorem guarded_start : Guarded (start R W) := by
  refine .start (by rintro (r | w) <;> rfl) ?_
  have hentries : tally entries (start R W).pos = 0 :=
    tally_eq_zero_iff.2 (by rintro (r | w) <;> rfl)
  have hwrites : tally writes (start R W).pos = 0 :=
    tally_eq_zero_iff.2 (by rintro (r | w) <;> rfl)
  rw [State.door, hentries, hwrites]
  simp [Shared.door, door, Door.Fits, start]

/-- While `mutex` is free, the counter and `db` agree. -/
theorem Guarded.idle_of_ne (h : Guarded s) (hmutex : s.shared.mutex ≠ 0) : s.door.Fits 0 := by
  have hone := h.one
  exact h.idle (by omega)

/-- The database is nobody's, one writer's or the readers'. -/
theorem Guarded.free_le (h : Guarded s) : s.shared.db + tally writes s.pos ≤ 1 := by
  have hle : s.door.free ≤ 1 := by
    by_cases hmutex : s.shared.mutex = 0
    · obtain ⟨t, ht⟩ := h.holder hmutex
      exact free_le_of_busy (h.busy t ht)
    · have hidle := h.idle_of_ne hmutex
      simp only [Door.Fits] at hidle
      omega
  simp only [State.door, Shared.door] at hle
  omega

variable [DecidableEq R] [DecidableEq W]

/-- Every step keeps the invariant. -/
theorem Guarded.step (h : Guarded s) (hstep : step id s t = some (e, s')) : Guarded s' := by
  obtain ⟨y, hmove, hpos⟩ := move_of_step hstep
  have hentries := tally_update entries s.pos t y
  have hwrites := tally_update writes s.pos t y
  have hle := le_tally entries s.pos t
  have hn : (tally entries s'.pos : Int) =
      tally entries s.pos + entries y - entries (s.pos t) := by
    rw [hpos]
    omega
  have hw : (tally writes s'.pos : Int) =
      tally writes s.pos + writes y - writes (s.pos t) := by
    rw [hpos]
    omega
  rw [Guarded, State.door, hn, hw, hpos]
  exact h.move (door_move hmove (by omega))

/-- The invariant holds in every run. -/
theorem guarded_of_run (hrun : Run (StepBy (step id)) (start R W) τ s) : Guarded s := by
  refine hrun.invariant (fun _ s => Guarded s) guarded_start ?_
  rintro τ s e s' - h ⟨t, hstep⟩
  exact h.step hstep

/-- While a reader is in `read_db`, no writer holds the database. -/
theorem Guarded.no_writer (h : Guarded s) (hread : s.pos t = .reader .read) :
    tally writes s.pos = 0 := by
  have hfree : s.door.free = 0 := by
    by_cases hmutex : s.shared.mutex = 0
    · obtain ⟨u, hu⟩ := h.holder hmutex
      have hut : u ≠ t := by
        rintro rfl
        rw [hread] at hu
        cases hu
      have hadd := add_le_tally entries s.pos hut
      rw [hread] at hadd
      refine free_of_busy (h.busy u hu) ?_
      show (entries (s.pos u) : Int) + 1 ≤ tally entries s.pos
      have hone : entries (.reader .read) = 1 := rfl
      omega
    · have hidle := h.idle_of_ne hmutex
      have hle := le_tally entries s.pos t
      rw [hread] at hle
      have hentry : entries (.reader .read) = 1 := rfl
      simp only [Door.Fits, State.door, Shared.door] at hidle ⊢
      omega
  simp only [State.door, Shared.door] at hfree
  omega

/-- In every state some thread waits at no semaphore of value 0. -/
theorem Guarded.exists_gate [Nonempty (R ⊕ W)] (h : Guarded s) :
    ∃ t, 0 < (s.pos t).gate s.shared := by
  by_contra hnone
  have hall : ∀ t, (s.pos t).gate s.shared = 0 := fun t =>
    Nat.eq_zero_of_not_pos fun ht => hnone ⟨t, ht⟩
  by_cases hmutex : s.shared.mutex = 0
  · -- the thread in the monitor waits for `db`, which a writer holds
    obtain ⟨t, ht⟩ := h.holder hmutex
    obtain ⟨hdb, hfree⟩ := waiting_of_holds ht (hall t) (h.busy t ht)
    simp only [State.door, Shared.door] at hfree
    obtain ⟨u, hu⟩ := (tally_kind_pos Pos.ownsDb s.pos).1 (show 0 < tally writes s.pos by omega)
    have hgate := hall u
    rw [gate_of_ownsDb s.shared hu] at hgate
    cases hgate
  · -- all threads are writers that wait for `db`
    have hrest : ∀ t, s.pos t = .writer .waitDb ∧ s.shared.db = 0 := by
      intro t
      have ht : (s.pos t).holdsMutex = false := by
        by_contra hholds
        exact hmutex (h.eq_zero (Bool.eq_true_of_not_eq_false hholds))
      exact waiting_of_not_holds hmutex ht (hall t)
    have hentries : tally entries s.pos = 0 := tally_eq_zero_iff.2 fun t => by rw [(hrest t).1]; rfl
    have hwrites : tally writes s.pos = 0 := tally_eq_zero_iff.2 fun t => by rw [(hrest t).1]; rfl
    have hdb := (hrest (Classical.arbitrary _)).2
    have hidle := h.idle_of_ne hmutex
    simp only [Door.Fits, State.door, Shared.door] at hidle
    omega

/-- For any number of readers and writers, at least one thread, and in every interleaving of their
steps: while a writer is in `write_db`, nobody else is there or in `read_db`; while `mutex` is free,
`reader_num` is the number of readers that have entered and not yet left, and `db` is 0 exactly when
that number is positive or a writer is between its wait and its post; not all threads are
blocked. -/
theorem readers_and_writers [Nonempty (R ⊕ W)]
    (hrun : Run (StepBy (step id)) (start R W) τ s) :
    (∀ t u, t ≠ u → s.pos t = .writer .write →
      s.pos u ≠ .reader .read ∧ s.pos u ≠ .writer .write) ∧
    (0 < s.shared.mutex →
      s.shared.reader_num = (Finset.univ.filter fun t => (s.pos t).entered = true).card ∧
        (s.shared.db = 0 ↔ 0 < (Finset.univ.filter fun t => (s.pos t).entered = true).card ∨
          ∃ t, (s.pos t).ownsDb = true)) ∧
    ¬ ∀ t, Blocked id s t := by
  have h := guarded_of_run hrun
  refine ⟨fun t u htu ht => ⟨fun hu => ?_, fun hu => ?_⟩, fun hmutex => ?_, fun hall => ?_⟩
  · have hle := le_tally writes s.pos t
    rw [h.no_writer hu, ht] at hle
    cases hle
  · have hadd := add_le_tally writes s.pos htu
    have hfree := h.free_le
    have hone : writes (.writer .write) = 1 := rfl
    rw [ht, hu] at hadd
    omega
  · rw [card_filter_eq_tally, ← tally_kind_pos Pos.ownsDb s.pos]
    have hidle := h.idle_of_ne (Nat.ne_of_gt hmutex)
    have hfree := h.free_le
    change _ = ((tally entries s.pos : Nat) : Int) ∧
      (_ ↔ 0 < tally entries s.pos ∨ 0 < tally writes s.pos)
    simp only [Door.Fits, State.door, Shared.door] at hidle
    omega
  · obtain ⟨t, ht⟩ := h.exists_gate
    have hgate := gate_of_blocked (hall t)
    omega

end Runs

/-- A reader took the database, a second one is past its test and reads too, and the writer
waits. -/
theorem readers_and_writers_three :
    ∃ (τ : List Event) (s : State (Fin 2) (Fin 1)),
      Run (StepBy (step fun _ => 1)) (start _ _) τ s ∧
      s.pos (.inl 0) = .reader .read ∧ s.pos (.inl 1) = .reader .read ∧
      Blocked (fun _ => 1) s (.inr 0) ∧ s.shared.reader_num = 2 ∧
      (Finset.univ.filter fun t => (s.pos t).entered = true).card = 2 ∧ s.shared.db = 0 ∧
      ¬ ∀ t, Blocked (fun _ => 1) s t := by
  let l : List (Fin 2 ⊕ Fin 1) := List.replicate 6 (.inl 0) ++ List.replicate 5 (.inl 1)
  let r := (perform (step fun _ => 1) [] (start (Fin 2) (Fin 1)) l).get rfl
  have hrun : Run (StepBy (step fun _ => 1)) (start _ _) r.1 r.2 := run_of_get rfl
  obtain ⟨-, hfree, hblocked⟩ := readers_and_writers hrun
  have hnum : r.2.shared.reader_num = 2 := rfl
  have hcard := (hfree (by decide)).1
  rw [hnum] at hcard
  exact ⟨r.1, r.2, hrun, rfl, rfl, rfl, hnum, Int.ofNat_inj.1 hcard.symm, rfl, hblocked⟩

end EE516.ReadWrite
