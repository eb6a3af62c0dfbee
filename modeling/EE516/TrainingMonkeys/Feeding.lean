import EE516.TrainingMonkeys.Assignment

/-!
# Feeding

The semaphore `bowls_empty` counts the monkeys to be fed, and the trainer infers the bowl from
`bowls_usage`, looking at the first bowl first. While it never takes for hungry the monkey at the
first bowl that has not announced itself or has its banana already (`Steered`), each banana goes to
a waiting monkey and none is forgotten; without this a second banana goes to the first bowl and the
monkey at the second one starves.
-/

set_option autoImplicit false

namespace EE516.TrainingMonkeys

open EE516.Foundations

universe u

/-! ## Bananas -/

/-- The monkey holds the bowl `i` and has not passed its `sem_wait(&bowls_detail[i])`. -/
def MonkeyPos.hungry (i : Int) : MonkeyPos → Bool
  | .postAcquire j | .postEmpty j | .waitDetail j => j = i
  | _ => false

/-- The monkey waits for its banana. -/
def MonkeyPos.waits (i : Int) : MonkeyPos → Bool
  | .waitDetail j => j = i
  | _ => false

/-- One for a monkey that waits for its banana at the bowl `i`. -/
def waiting (i : Int) (x : MonkeyPos) : Nat := (x.waits i).toNat

/-- The trainer has taken a unit of `bowls_empty` and looks for the bowl. -/
def TrainerPos.looks : TrainerPos → Nat
  | .testFirst | .testSecond => 1
  | _ => 0

/-- The trainer is about to feed the bowl `i`. -/
def TrainerPos.feeds (i : Int) : TrainerPos → Nat
  | .postDetail j => if j = i then 1 else 0
  | _ => 0

/-! ## One step -/

section Moves

variable {m m' : Shared} {x y : MonkeyPos}

theorem waiting_le_ownership (i : Int) (x : MonkeyPos) : waiting i x ≤ ownership i x := by
  cases x <;> first | exact Nat.le_refl _ | exact Nat.zero_le _

/-- A step of a monkey takes no more bananas from a bowl than it takes waiting monkeys from it. -/
theorem detail_move (h : Move m x m' y) (i : Int) :
    m'.bowls_detail i + waiting i x ≤ m.bowls_detail i + waiting i y := by
  cases h with
  | @fed j hpos =>
    by_cases hji : j = i
    · subst hji
      simp [waiting, MonkeyPos.waits]
      omega
    · have hij : i ≠ j := fun h => hji h.symm
      simp [waiting, MonkeyPos.waits, hji, hij]
  | postedEmpty => exact Nat.add_le_add_left (Nat.zero_le _) _
  | _ => exact Nat.le_refl _

/-- A monkey that comes to wait posts `bowls_empty`, and one that leaves takes a banana. -/
theorem waiting_move (h : Move m x m' y) (hvalid : x.Valid) :
    m.bowls_empty + m.bowls_detail 0 + m.bowls_detail 1 + waiting 0 y + waiting 1 y =
      m'.bowls_empty + m'.bowls_detail 0 + m'.bowls_detail 1 + waiting 0 x + waiting 1 x := by
  cases h with
  | @fed j hpos =>
    rcases hvalid with rfl | rfl <;> simp [waiting, MonkeyPos.waits] <;> omega
  | @postedEmpty j =>
    rcases hvalid with rfl | rfl <;> simp [waiting, MonkeyPos.waits] <;> omega
  | _ => rfl

end Moves

/-! ## Runs -/

section Runs

variable {T : Type u}

/-- The bananas in the bowl `i`, with the one that the trainer is about to put there. -/
def State.bananas (s : State T) (i : Int) : Nat := s.shared.bowls_detail i + s.trainer.feeds i

/-- When the trainer looks at the first bowl and finds it in use, the bowl is empty and its monkey
waits for the banana. -/
def Steered (s : State T) : Turn T → Prop
  | .trainer => s.trainer = .testFirst → s.shared.bowls_usage 0 = 1 →
      s.shared.bowls_detail 0 = 0 ∧ ∃ t, s.monkey t = .waitDetail 0
  | .monkey _ => True

instance [Fintype T] (s : State T) (e : Turn T) : Decidable (Steered s e) := by
  cases e with
  | monkey t => exact isTrue trivial
  | trainer =>
    exact inferInstanceAs (Decidable (s.trainer = .testFirst → s.shared.bowls_usage 0 = 1 →
      s.shared.bowls_detail 0 = 0 ∧ ∃ t, s.monkey t = .waitDetail 0))

/-- A bowl has one banana at most, and it has one only while a monkey holds the bowl that has not
taken it; no monkey waits for a banana that the trainer does not know of. -/
def FeedsRight (s : State T) : Prop :=
  (∀ i, i = 0 ∨ i = 1 → s.shared.bowls_detail i ≤ 1 ∧
    (s.shared.bowls_detail i = 1 → ∃ t, (s.monkey t).hungry i = true)) ∧
  ¬ ∃ t i, s.monkey t = .waitDetail i ∧ s.shared.bowls_detail i = 0 ∧
    s.shared.bowls_empty = 0 ∧ s.trainer = .waitEmpty

variable [Fintype T] {s s' : State T} {e : Turn T} {τ : List (Turn T)} {k : Nat}

/-- Every banana has its waiting monkey, and every other waiting monkey has a unit of
`bowls_empty`, or the trainer looks for it. -/
structure Fed (s : State T) : Prop where
  first : s.bananas 0 ≤ tally (waiting 0) s.monkey
  second : s.bananas 1 ≤ tally (waiting 1) s.monkey
  sum : tally (waiting 0) s.monkey + tally (waiting 1) s.monkey =
    s.bananas 0 + s.bananas 1 + s.shared.bowls_empty + s.trainer.looks
  sought : s.trainer = .testSecond → s.bananas 1 < tally (waiting 1) s.monkey

theorem fed_start : Fed (start T k) := by
  have hzero : ∀ i, tally (waiting i) (start T k).monkey = 0 := fun i => tally_start rfl
  refine ⟨Nat.zero_le _, Nat.zero_le _, ?_, nofun⟩
  rw [hzero, hzero]
  rfl

/-- A bowl that is not in use has no waiting monkey. -/
theorem Assigned.waiting_eq_zero (h : Assigned s) :
    (s.shared.bowls_usage 0 ≠ 1 → tally (waiting 0) s.monkey = 0) ∧
      (s.shared.bowls_usage 1 ≠ 1 → tally (waiting 1) s.monkey = 0) := by
  have hfits := h.fits
  have hle₀ := tally_mono (waiting_le_ownership 0) s.monkey
  have hle₁ := tally_mono (waiting_le_ownership 1) s.monkey
  simp only [Table.Fits, State.table, Shared.table] at hfits
  omega

theorem hungry_of_waits {i : Int} {x : MonkeyPos} (h : x.waits i = true) : x.hungry i = true := by
  cases x <;> first | exact h | cases h

/-- A bowl with a banana has its hungry monkey. -/
theorem Assigned.hungry (h : Assigned s) {i : Int} {n : Nat} (hi : i = 0 ∨ i = 1)
    (hle : n ≤ tally (waiting i) s.monkey) :
    n ≤ 1 ∧ (n = 1 → ∃ t, (s.monkey t).hungry i = true) := by
  have hfits := h.fits
  have hown := tally_mono (waiting_le_ownership i) s.monkey
  simp only [Table.Fits, State.table, Shared.table] at hfits
  refine ⟨?_, fun hn => ?_⟩
  · rcases hi with rfl | rfl <;> omega
  · obtain ⟨t, ht⟩ := (tally_kind_pos (MonkeyPos.waits i) s.monkey).1
      (show 0 < tally (waiting i) s.monkey by omega)
    exact ⟨t, hungry_of_waits ht⟩

variable [DecidableEq T]

/-- A step that meets the condition keeps the invariant. -/
theorem Fed.effect (h : Fed s) (hassigned : Assigned s) (he : Effect s e s')
    (hsteered : Steered s e) : Fed s' := by
  obtain ⟨hfirst, hsecond, hsum, hsought⟩ := h
  cases he with
  | @monkey t m y hmove =>
    have hdetail₀ := detail_move hmove 0
    have hdetail₁ := detail_move hmove 1
    have hwaiting := waiting_move hmove (hassigned.valid t)
    have htally₀ := tally_update (waiting 0) s.monkey t y
    have htally₁ := tally_update (waiting 1) s.monkey t y
    simp only [State.bananas] at hfirst hsecond hsum hsought
    refine ⟨?_, ?_, ?_, fun htrainer => ?_⟩
    · simp only [State.bananas]
      omega
    · simp only [State.bananas]
      omega
    · simp only [State.bananas]
      omega
    · have hlt := hsought htrainer
      simp only [State.bananas]
      omega
  | @trainer m y hfeed =>
    obtain ⟨hnone₀, hnone₁⟩ := hassigned.waiting_eq_zero
    simp only [Steered] at hsteered
    simp only [State.bananas] at hfirst hsecond hsum hsought
    generalize hx : s.trainer = x at hfeed hfirst hsecond hsum hsought hsteered
    cases hfeed with
    | woken hpos =>
      simp only [TrainerPos.feeds, TrainerPos.looks] at hfirst hsecond hsum
      refine ⟨hfirst, hsecond, ?_, by simp⟩
      simp only [State.bananas, TrainerPos.feeds, TrainerPos.looks]
      omega
    | first hused =>
      obtain ⟨hempty, t, ht⟩ := hsteered rfl hused
      have hle := le_tally (waiting 0) s.monkey t
      rw [ht] at hle
      have hone : waiting 0 (.waitDetail 0) = 1 := rfl
      simp only [TrainerPos.feeds, TrainerPos.looks] at hfirst hsecond hsum
      refine ⟨?_, ?_, ?_, by simp⟩ <;> simp [State.bananas, TrainerPos.feeds, TrainerPos.looks] <;>
        omega
    | notFirst hunused =>
      have hzero := hnone₀ hunused
      simp only [TrainerPos.feeds, TrainerPos.looks] at hfirst hsecond hsum
      refine ⟨hfirst, hsecond, hsum, fun _ => ?_⟩
      simp only [State.bananas, TrainerPos.feeds]
      omega
    | second hused =>
      have hlt := hsought rfl
      simp only [TrainerPos.feeds, TrainerPos.looks] at hfirst hsecond hsum hlt
      refine ⟨?_, ?_, ?_, by simp⟩ <;> simp [State.bananas, TrainerPos.feeds, TrainerPos.looks] <;>
        omega
    | neither hunused =>
      -- the trainer has been sent to a monkey at the second bowl
      have hlt := hsought rfl
      rw [hnone₁ hunused] at hlt
      cases hlt
    | @posted i =>
      have hsame : ∀ j, Function.update s.shared.bowls_detail i (s.shared.bowls_detail i + 1) j =
          s.shared.bowls_detail j + TrainerPos.feeds j (.postDetail i) := by
        intro j
        by_cases hij : i = j
        · subst hij
          simp [TrainerPos.feeds]
        · have hji : j ≠ i := fun h => hij h.symm
          simp [TrainerPos.feeds, hij, hji]
      refine ⟨?_, ?_, ?_, by simp⟩
      · simp only [State.bananas, hsame]
        exact hfirst
      · simp only [State.bananas, hsame]
        exact hsecond
      · simp only [State.bananas, hsame]
        exact hsum

/-- Both invariants hold in every run whose steps meet the condition. -/
theorem fed_of_run
    (hrun : Run (fun s e s' => StepBy step s e s' ∧ Steered s e) (start T k) τ s) :
    Assigned s ∧ Fed s := by
  refine hrun.invariant (fun _ s => Assigned s ∧ Fed s) ⟨assigned_start, fed_start⟩ ?_
  rintro τ s e s' - ⟨hassigned, hfed⟩ ⟨hstep, hsteered⟩
  have he := effect_of_step hstep
  exact ⟨hassigned.effect he, hfed.effect hassigned he hsteered⟩

/-- For any number of monkeys, in every interleaving in which the trainer is steered: the bowls are
fed right in every state. -/
theorem feeds_right_of_steered
    (hrun : Run (fun s e s' => StepBy step s e s' ∧ Steered s e) (start T k) τ s) :
    FeedsRight s := by
  obtain ⟨hassigned, hfed⟩ := fed_of_run hrun
  have hdetail : ∀ i, s.shared.bowls_detail i ≤ s.bananas i := fun i => Nat.le_add_right _ _
  refine ⟨fun i hi => ?_, ?_⟩
  · rcases hi with rfl | rfl
    · exact hassigned.hungry (.inl rfl) ((hdetail 0).trans hfed.first)
    · exact hassigned.hungry (.inr rfl) ((hdetail 1).trans hfed.second)
  · rintro ⟨t, i, ht, hnone, hempty, htrainer⟩
    have hfirst := hfed.first
    have hsecond := hfed.second
    have hsum := hfed.sum
    have hle := le_tally (waiting i) s.monkey t
    have hvalid : i = 0 ∨ i = 1 := by
      have hvalid := hassigned.valid t
      rwa [ht] at hvalid
    simp only [State.bananas, htrainer, TrainerPos.feeds, TrainerPos.looks] at hfirst hsecond hsum
    rw [ht] at hle
    have hone : waiting i (.waitDetail i) = 1 := by simp [waiting, MonkeyPos.waits]
    rcases hvalid with rfl | rfl <;> omega

end Runs

/-- The monkey's steps up to its wait for a banana. -/
def toBowl {n : Nat} (t : Fin n) (steps : Nat) : List (Turn (Fin n)) :=
  List.replicate steps (.monkey t)

/-- The trainer feeds a monkey at the first bowl. -/
theorem feeds_right_of_steered_one :
    ∃ (τ : List (Turn (Fin 2))) (s : State (Fin 2)), Run (StepBy step) (start (Fin 2) 2) τ s ∧
      s.shared.bowls_detail 0 = 1 ∧ FeedsRight s := by
  let l : List (Turn (Fin 2)) := toBowl 0 8 ++ [.trainer, .trainer, .trainer]
  let r := (perform (restrict step Steered) [] (start (Fin 2) 2) l).get (by decide)
  have hrun : Run (StepBy (restrict step Steered)) (start (Fin 2) 2) r.1 r.2 := run_of_get _
  refine ⟨r.1, r.2, hrun.mono fun h => (stepBy_restrict h).1, by decide, ?_⟩
  exact feeds_right_of_steered (hrun.mono stepBy_restrict)

/-- Two monkeys wait at the bowls, and the trainer feeds the first bowl twice. -/
theorem first_bowl_fed_twice :
    ¬ ∀ (τ : List (Turn (Fin 2))) (s : State (Fin 2)),
      Run (StepBy step) (start (Fin 2) 2) τ s → FeedsRight s := by
  intro h
  let l : List (Turn (Fin 2)) := toBowl 0 8 ++ toBowl 1 9 ++ List.replicate 6 .trainer
  let r := (perform step [] (start (Fin 2) 2) l).get (by decide)
  have hrun : Run (StepBy step) (start (Fin 2) 2) r.1 r.2 := run_of_get _
  obtain ⟨hbowls, -⟩ := h r.1 r.2 hrun
  exact absurd (hbowls 0 (.inl rfl)).1 (by decide)

end EE516.TrainingMonkeys
