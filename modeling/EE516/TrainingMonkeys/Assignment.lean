import EE516.Foundations.Monitor
import EE516.TrainingMonkeys.Bowls

/-!
# The assignment of the bowls

The semaphore `bowlCheckingMutex` makes a monitor of `bowls_usage` and of the monkeys that own a
bowl (`table`): a bowl is in use exactly while one monkey owns it. The semaphore `bowls_full` lets
two monkeys in at a time, so that the one that looks for a bowl finds one.
-/

set_option autoImplicit false

namespace EE516.TrainingMonkeys

open EE516.Foundations

universe u

/-! ## Positions -/

/-- The monkey owns the bowl `i`: it has set `bowls_usage[i]` and not yet cleared it. -/
def MonkeyPos.owns (i : Int) : MonkeyPos → Bool
  | .postAcquire j | .postEmpty j | .waitDetail j => j = i
  | .waitRelease j | .testRelease j | .clear j => j = i
  | _ => false

/-- The monkey has passed `bowls_full` and owns no bowl yet. -/
def MonkeyPos.looking : MonkeyPos → Bool
  | .testErrno errno => errno ≠ EAGAIN
  | .waitAcquire | .testFirst | .takeFirst | .testSecond | .takeSecond => true
  | _ => false

/-- The monkey is between its successful `sem_trywait(&bowls_full)` and its `sem_post`. -/
def MonkeyPos.admitted : MonkeyPos → Bool
  | .testErrno errno => errno ≠ EAGAIN
  | .postMaxMonkeys _ | .tryFull _ | .eatBananas | .eatApples => false
  | _ => true

/-- The monkey is between its wait for `bowlCheckingMutex` and its post. -/
def MonkeyPos.holdsMutex : MonkeyPos → Bool
  | .testFirst | .takeFirst | .testSecond | .takeSecond | .postAcquire _ => true
  | .testRelease _ | .clear _ | .postRelease => true
  | _ => false

/-- The bowl is one of the two, and `errno` is not stale. -/
def MonkeyPos.Valid : MonkeyPos → Prop
  | .postMaxMonkeys errno | .tryFull errno => errno ≠ EAGAIN
  | .postAcquire i | .postEmpty i | .waitDetail i => i = 0 ∨ i = 1
  | .waitRelease i | .testRelease i | .clear i => i = 0 ∨ i = 1
  | _ => True

/-- What the monitor guards: the usage of the two bowls and the numbers of their owners. -/
structure Table where
  usage₀ : Int
  usage₁ : Int
  owners₀ : Int
  owners₁ : Int

/-- A bowl is in use exactly when it has an owner, and it has one at most. -/
def Table.Fits (d : Table) : Prop :=
  d.usage₀ = d.owners₀ ∧ d.usage₁ = d.owners₁ ∧ d.owners₀ ≤ 1 ∧ d.owners₁ ≤ 1

/-- The monitor of `bowlCheckingMutex`. -/
def table : Monitor MonkeyPos Table where
  holds := MonkeyPos.holdsMutex
  idle := Table.Fits
  busy d
    | .takeFirst => d.Fits ∧ d.owners₀ = 0
    | .testSecond => d.Fits ∧ d.owners₀ = 1
    | .takeSecond => d.Fits ∧ d.owners₁ = 0
    | _ => d.Fits

/-- One for a monkey that owns the bowl `i`. -/
def ownership (i : Int) (x : MonkeyPos) : Nat := (x.owns i).toNat

/-- One for a monkey that has passed `bowls_full` and owns no bowl yet. -/
def looks (x : MonkeyPos) : Nat := x.looking.toNat

/-- One for a monkey between its successful `sem_trywait(&bowls_full)` and its `sem_post`. -/
def admission (x : MonkeyPos) : Nat := x.admitted.toNat

/-- The monitor's data with the numbers of the owners. -/
def Shared.table (m : Shared) (owners₀ owners₁ : Int) : Table :=
  ⟨m.bowls_usage 0, m.bowls_usage 1, owners₀, owners₁⟩

/-! ## One step -/

section Moves

variable {m m' : Shared} {x y : MonkeyPos} {n₀ n₁ : Int}

/-- While somebody is busy with it, the table fits. -/
theorem fits_of_busy {d : Table} (h : table.busy d x) : d.Fits := by
  cases x with
  | takeFirst | testSecond | takeSecond => exact h.1
  | _ => exact h

/-- A step that moves no bowl and leaves `bowls_usage` alone keeps the table. -/
theorem table_eq (husage : m'.bowls_usage = m.bowls_usage) (h₀ : y.owns 0 = x.owns 0)
    (h₁ : y.owns 1 = x.owns 1) :
    m'.table (n₀ + ownership 0 y - ownership 0 x) (n₁ + ownership 1 y - ownership 1 x) =
      m.table n₀ n₁ := by
  simp [Shared.table, ownership, husage, h₀, h₁]

/-- Every move of a monkey is one of the monitor of the bowls. -/
theorem table_move (h : Move m x m' y) (hvalid : x.Valid) (h₀ : ownership 0 x ≤ n₀)
    (h₁ : ownership 1 x ≤ n₁) {d' : Table}
    (hd' : d' = m'.table (n₀ + ownership 0 y - ownership 0 x)
      (n₁ + ownership 1 y - ownership 1 x)) :
    table.Move m.bowlCheckingMutex (m.table n₀ n₁) x m'.bowlCheckingMutex d' y := by
  cases h with
  | leftRoom | tookFull | foundNone | gaveUp | wentOn | postedEmpty | fed | postedFull =>
    exact .same rfl rfl (hd'.trans (table_eq rfl rfl rfl))
  | acquireLocked hpos | releaseLocked hpos =>
    obtain rfl := hd'.trans (table_eq rfl rfl rfl)
    obtain ⟨k, hk⟩ : ∃ k, m.bowlCheckingMutex = k + 1 := ⟨m.bowlCheckingMutex - 1, by omega⟩
    simp only [hk, Nat.add_sub_cancel]
    exact .enter rfl rfl id
  | acquireUnlocked | releaseUnlocked =>
    obtain rfl := hd'.trans (table_eq rfl rfl rfl)
    exact .leave rfl rfl id
  | firstFree hfree | firstTaken hfree | secondFree hfree =>
    obtain rfl := hd'.trans (table_eq rfl rfl rfl)
    refine .stay rfl rfl fun hd => ⟨fits_of_busy hd, ?_⟩
    simp only [table, Table.Fits, Shared.table] at hd ⊢
    omega
  | secondTaken =>
    obtain rfl := hd'.trans (table_eq rfl rfl rfl)
    exact .stay rfl rfl fun hd => fits_of_busy hd
  | found hused =>
    obtain rfl := hd'.trans (table_eq rfl rfl rfl)
    exact .stay rfl rfl id
  | tookFirst | tookSecond =>
    subst hd'
    refine .stay rfl rfl fun hd => ?_
    simp [table, Table.Fits, Shared.table, ownership, MonkeyPos.owns] at hd ⊢
    omega
  | notFound hused =>
    subst hd'
    refine .stay rfl rfl fun hd => ?_
    -- the monkey owns the bowl, so it is in use
    rcases hvalid with rfl | rfl
    · simp [table, Table.Fits, Shared.table, ownership, MonkeyPos.owns] at hd h₀ hused ⊢
      omega
    · simp [table, Table.Fits, Shared.table, ownership, MonkeyPos.owns] at hd h₁ hused ⊢
      omega
  | cleared =>
    subst hd'
    refine .stay rfl rfl fun hd => ?_
    rcases hvalid with rfl | rfl
    · simp [table, Table.Fits, Shared.table, ownership, MonkeyPos.owns] at hd h₀ ⊢
      omega
    · simp [table, Table.Fits, Shared.table, ownership, MonkeyPos.owns] at hd h₁ ⊢
      omega

/-- A unit of `bowls_full` is free or held by a monkey, before a move and after it. -/
theorem admission_move (h : Move m x m' y) (hvalid : x.Valid) :
    m'.bowls_full + admission y = m.bowls_full + admission x := by
  cases h with
  | @tookFull errno hpos =>
    have hadmitted : admission (.testErrno errno) = 1 := by
      simp [admission, MonkeyPos.admitted, show errno ≠ EAGAIN from hvalid]
    have hbefore : admission (.tryFull errno) = 0 := rfl
    simp only [hadmitted, hbefore]
    omega
  | wentOn herrno => simp [admission, MonkeyPos.admitted, herrno]
  | _ => rfl

/-- A move keeps the bowl of a monkey one of the two. -/
theorem valid_move (h : Move m x m' y) (hvalid : x.Valid)
    (hfree : x = .testSecond → m.bowls_usage 1 = 0) : y.Valid := by
  cases h with
  | secondTaken hused => exact absurd (hfree rfl) hused
  | leftRoom | acquireUnlocked | postedEmpty | fed | releaseLocked | found => exact hvalid
  | tookFirst => exact .inl rfl
  | tookSecond => exact .inr rfl
  | _ => trivial

/-- A monkey that owns a bowl or looks for one has passed `bowls_full`. -/
theorem owned_le_admission (x : MonkeyPos) :
    ownership 0 x + ownership 1 x + looks x ≤ admission x := by
  cases x with
  | testErrno errno => simp [ownership, looks, admission, MonkeyPos.owns, MonkeyPos.looking,
      MonkeyPos.admitted]
  | postAcquire i | postEmpty i | waitDetail i | waitRelease i | testRelease i | clear i =>
    simp only [ownership, looks, admission, MonkeyPos.owns, MonkeyPos.looking,
      MonkeyPos.admitted, Bool.toNat_true, Bool.toNat_false]
    by_cases hi : i = 0
    · subst hi
      decide
    · have hle := Bool.toNat_le (decide (i = 1))
      simp only [hi, decide_false, Bool.toNat_false]
      omega
  | postMaxMonkeys | tryFull => exact Nat.le_refl 0
  | _ => decide

/-- The trainer leaves `bowls_usage` and the semaphores of the assignment alone. -/
theorem feed_frame {x y : TrainerPos} (h : Feed m x m' y) :
    m'.bowls_usage = m.bowls_usage ∧ m'.bowlCheckingMutex = m.bowlCheckingMutex ∧
      m'.bowls_full = m.bowls_full := by
  cases h <;> exact ⟨rfl, rfl, rfl⟩

end Moves

/-! ## Runs -/

section Runs

variable {T : Type u} [Fintype T] {s s' : State T} {e : Turn T} {τ : List (Turn T)} {k : Nat}

/-- The monitor's data in a state. -/
def State.table (s : State T) : Table :=
  s.shared.table (tally (ownership 0) s.monkey) (tally (ownership 1) s.monkey)

/-- The bowls are in use as they are owned, and two monkeys at most are among them. -/
structure Assigned (s : State T) : Prop where
  table : table.Inv s.shared.bowlCheckingMutex s.table s.monkey
  slots : s.shared.bowls_full + tally admission s.monkey = 2
  valid : ∀ t, (s.monkey t).Valid

theorem tally_start {weight : MonkeyPos → Nat} (h : weight (.postMaxMonkeys 0) = 0) :
    tally weight (start T k).monkey = 0 :=
  tally_eq_zero_iff.2 fun _ => h

theorem assigned_start : Assigned (start T k) where
  table := by
    refine .start (fun _ => rfl) ?_
    rw [State.table, tally_start rfl, tally_start rfl]
    exact ⟨rfl, rfl, Int.zero_le_ofNat 1, Int.zero_le_ofNat 1⟩
  slots := by
    rw [tally_start rfl]
    rfl
  valid _ := show (0 : Int) ≠ EAGAIN by decide

/-- The table fits in every state of the invariant. -/
theorem Assigned.fits (h : Assigned s) : s.table.Fits := by
  by_cases hmutex : s.shared.bowlCheckingMutex = 0
  · obtain ⟨t, ht⟩ := h.table.holder hmutex
    exact fits_of_busy (h.table.busy t ht)
  · have hone := h.table.one
    exact h.table.idle (by omega)

/-- Nobody owns a bowl of which the table counts no owner. -/
theorem owns_eq_false {i : Int} (h : tally (ownership i) s.monkey = 0) (t : T) :
    (s.monkey t).owns i = false := by
  have hzero := tally_eq_zero_iff.1 h t
  rwa [ownership, Bool.toNat_eq_zero] at hzero

/-- A bowl that a monkey is about to take has no owner. -/
theorem Assigned.free (h : Assigned s) {t : T} :
    (s.monkey t = .takeFirst → ∀ u, (s.monkey u).owns 0 = false) ∧
      (s.monkey t = .takeSecond → ∀ u, (s.monkey u).owns 1 = false) := by
  constructor
  · intro ht
    have hbusy := h.table.busy t (by rw [ht]; rfl)
    rw [ht] at hbusy
    exact owns_eq_false (Int.natCast_eq_zero.1 hbusy.2)
  · intro ht
    have hbusy := h.table.busy t (by rw [ht]; rfl)
    rw [ht] at hbusy
    exact owns_eq_false (Int.natCast_eq_zero.1 hbusy.2)

variable [DecidableEq T]

/-- The second bowl is free for a monkey that has found the first one in use. -/
theorem Assigned.second_free (h : Assigned s) {t : T} (ht : s.monkey t = .testSecond) :
    s.shared.bowls_usage 1 = 0 := by
  have hbusy := h.table.busy t (by rw [ht]; rfl)
  rw [ht] at hbusy
  have hlooks := le_tally looks s.monkey t
  have hone : looks .testSecond = 1 := rfl
  have hle := tally_mono owned_le_admission s.monkey
  rw [tally_add, tally_add] at hle
  have hslots := h.slots
  rw [ht] at hlooks
  simp only [TrainingMonkeys.table, Table.Fits, State.table, Shared.table] at hbusy
  omega

/-- Every step keeps the invariant. -/
theorem Assigned.effect (h : Assigned s) (he : Effect s e s') : Assigned s' := by
  cases he with
  | @monkey t m y hmove =>
    have hvalid := h.valid t
    have hown₀ := tally_update (ownership 0) s.monkey t y
    have hown₁ := tally_update (ownership 1) s.monkey t y
    have hle₀ := le_tally (ownership 0) s.monkey t
    have hle₁ := le_tally (ownership 1) s.monkey t
    refine ⟨h.table.move (table_move hmove hvalid (by omega) (by omega) ?_), ?_, fun u => ?_⟩
    · simp only [State.table, Shared.table, Table.mk.injEq, true_and]
      omega
    · have hold := h.slots
      have hmoved := admission_move hmove hvalid
      have htally := tally_update admission s.monkey t y
      show m.bowls_full + tally admission (Function.update s.monkey t y) = 2
      omega
    · show (Function.update s.monkey t y u).Valid
      by_cases hut : u = t
      · rw [hut, Function.update_self]
        exact valid_move hmove hvalid fun hx => h.second_free hx
      · rw [Function.update_of_ne hut]
        exact h.valid u
  | trainer hfeed =>
    obtain ⟨husage, hmutex, hfull⟩ := feed_frame hfeed
    have htable := h.table
    simp only [State.table, Shared.table] at htable
    refine ⟨?_, hfull ▸ h.slots, h.valid⟩
    simp only [State.table, Shared.table, husage, hmutex]
    exact htable

/-- The invariant holds in every run. -/
theorem assigned_of_run (hrun : Run (StepBy step) (start T k) τ s) : Assigned s :=
  hrun.invariant (fun _ s => Assigned s) assigned_start
    fun _ hassigned hstep => hassigned.effect (effect_of_step hstep)

theorem bowl_of_owns {i : Int} {x : MonkeyPos} (hvalid : x.Valid) (h : x.owns i = true) :
    i = 0 ∨ i = 1 := by
  cases x with
  | postAcquire j | postEmpty j | waitDetail j | waitRelease j | testRelease j | clear j =>
    obtain rfl : j = i := of_decide_eq_true h
    exact hvalid
  | _ => cases h

/-- A bowl has one owner at most, and a bowl with an owner is in use. -/
theorem Assigned.owner (h : Assigned s) {i : Int} {t : T} (ht : (s.monkey t).owns i = true) :
    s.shared.bowls_usage i = 1 ∧ ∀ u, (s.monkey u).owns i = true → u = t := by
  have hfits := h.fits
  have hone : ∀ {u}, (s.monkey u).owns i = true → ownership i (s.monkey u) = 1 := by
    intro u hu
    rw [ownership, hu]
    rfl
  have hle := le_tally (ownership i) s.monkey t
  rw [hone ht] at hle
  simp only [Table.Fits, State.table, Shared.table] at hfits
  have hbowl : s.shared.bowls_usage i = 1 ∧ tally (ownership i) s.monkey ≤ 1 := by
    rcases bowl_of_owns (h.valid t) ht with rfl | rfl <;> omega
  refine ⟨hbowl.1, fun u hu => unique_of_tally_le_one hbowl.2 ?_ ?_⟩
  · rw [hone hu]
    exact Nat.one_pos
  · rw [hone ht]
    exact Nat.one_pos

/-- What the monkeys rely on at the bowls. -/
structure AssignsRight (s : State T) : Prop where
  /-- `bowls_full` counts the places that the admitted monkeys have left. -/
  slots : s.shared.bowls_full +
    (Finset.univ.filter fun t => (s.monkey t).admitted = true).card = 2
  /-- `acquireProperBowl` does not come to its error branch. -/
  acquire : ∀ t, s.monkey t = .testSecond → s.shared.bowls_usage 1 = 0
  number : ∀ t i, (s.monkey t).owns i = true → i = 0 ∨ i = 1
  /-- A bowl that is given to a monkey has no owner. -/
  first : ∀ t, s.monkey t = .takeFirst → ∀ u, (s.monkey u).owns 0 = false
  second : ∀ t, s.monkey t = .takeSecond → ∀ u, (s.monkey u).owns 1 = false
  owner : ∀ i t u, (s.monkey t).owns i = true → (s.monkey u).owns i = true → u = t
  /-- `releaseBowl` does not come to its error branch. -/
  release : ∀ t i, s.monkey t = .testRelease i → s.shared.bowls_usage i = 1

/-- For any number of monkeys, in every interleaving. -/
theorem bowls_assigned (hrun : Run (StepBy step) (start T k) τ s) : AssignsRight s := by
  have h := assigned_of_run hrun
  constructor
  · rw [card_filter_eq_tally]
    exact h.slots
  · intro t ht
    exact h.second_free ht
  · intro t i ht
    exact bowl_of_owns (h.valid t) ht
  · intro t ht
    exact h.free.1 ht
  · intro t ht
    exact h.free.2 ht
  · intro i t u ht hu
    exact (h.owner ht).2 u hu
  · intro t i ht
    exact (h.owner (t := t) (by rw [ht]; exact decide_eq_true rfl)).1

end Runs

/-- Three monkeys come to the bowls: the first has its bowl, the second is about to take the other
one, and the third has found no place. -/
theorem bowls_assigned_three :
    ∃ (τ : List (Turn (Fin 3))) (s : State (Fin 3)), Run (StepBy step) (start (Fin 3) 1) τ s ∧
      s.monkey 0 = .postEmpty 0 ∧ s.monkey 1 = .takeSecond ∧ s.monkey 2 = .eatApples ∧
      AssignsRight s := by
  let l : List (Turn (Fin 3)) := List.replicate 7 (.monkey 0) ++ List.replicate 6 (.monkey 1) ++
    List.replicate 3 (.monkey 2)
  let r := (perform step [] (start (Fin 3) 1) l).get (by decide)
  have hrun : Run (StepBy step) (start (Fin 3) 1) r.1 r.2 := run_of_get _
  exact ⟨r.1, r.2, hrun, by decide, by decide, by decide, bowls_assigned hrun⟩

end EE516.TrainingMonkeys
