import EE516.Philosopher.Arrays

/-!
# The indexes of the philosophers

The philosophers have the numbers `1, …, N`, and the array `state` has the indexes `0, …, N - 1`:
the cell of the philosopher `N` is outside, and its semaphore is the one that `main` leaves out. A
run is without a fault as long as nobody has used that cell. Philosopher `N` uses it when it gets
hungry, and a `test` of one of the two philosophers beside it when it reads the state on that side.
These are the first uses: before one of them, the two beside it are never made to eat, so that they
sleep on their semaphores in `take_forks`, and nobody calls `test(N)`.
-/

set_option autoImplicit false

namespace EE516.Philosopher.Arrays

open EE516.Foundations

variable {N i j k t : Nat} {s s' : Process} {e : Event} {a : Action} {p p' : Point} {c : TestCall}

/-- The step of the philosopher `i` is `state[N] = HUNGRY` of the philosopher `N`, or the read of
`state[getLeft(1)]` in `test(1)`, or the read of `state[getRight(N - 1)]` in `test(N - 1)`. -/
def ReachesLast (N i : Nat) : Point → Prop
  | .setHungry => i = N
  | .test c .readLeft => target N i c = 1
  | .test c .readRight => target N i c + 1 = N
  | _ => False

/-- The event is of such a step. -/
def Event.ReachesLast (N : Nat) : Event → Prop
  | .main => False
  | .thread i p | .fault i p => Arrays.ReachesLast N i p

/-- The step was an access to a semaphore that was not initialised. -/
def Event.IsFault : Event → Prop
  | .fault _ _ => True
  | _ => False

/-! ## What a step does -/

/-- Everything that a step can be. -/
inductive Move (N : Nat) (s : Process) : Event → Process → Prop
  | main {ok : Bool} {s' : Process} (h : mainStep N s ok = some s') : Move N s .main s'
  | thread {i : Nat} {p : Point} {s' : Process} (hp : s.point i = some p)
      (hv : ∀ c ∈ uses N i p, c.Valid N s) (h : threadStep N s i p = some s') :
      Move N s (.thread i p) s'
  | fault {i : Nat} {p : Point} (hp : s.point i = some p)
      (hv : ¬ ∀ c ∈ uses N i p, c.Valid N s) :
      Move N s (.fault i p) { s with crashed := true }

theorem move_of_step (h : step N s a = some (e, s')) : s.crashed = false ∧ Move N s e s' := by
  unfold step at h
  split at h
  · cases h
  · refine ⟨by simp_all, ?_⟩
    cases a with
    | main ok =>
      obtain ⟨s₁, hs₁, heq⟩ := Option.map_eq_some_iff.1 h
      cases heq
      exact .main hs₁
    | thread i =>
      cases hp : s.point i with
      | none => simp [hp] at h
      | some p =>
        simp only [hp] at h
        split at h
        case isTrue hv =>
          obtain ⟨s₁, hs₁, heq⟩ := Option.map_eq_some_iff.1 h
          cases heq
          exact .thread hp hv hs₁
        case isFalse hv =>
          cases h
          exact .fault hp hv

/-- Everything that a step of `main` can be. -/
inductive MainMove (N : Nat) (s : Process) : Process → Prop
  | initMutex : MainMove N s ((s.setMutex (some 1)).setMain (.initSem 0))
  | exit : MainMove N s (s.setMain .exited)
  | initSem {k : Nat} (h : s.main = .initSem k) (hk : k < N) :
      MainMove N s ((s.setSem k (some 0)).setMain (.initSem (k + 1)))
  | allSems {k : Nat} (h : s.main = .initSem k) (hk : ¬ k < N) :
      MainMove N s (s.setMain (.spawn 0))
  | spawn {k : Nat} (h : s.main = .spawn k) (hk : k < N) :
      MainMove N s ((s.setPoint (k + 1) .think).setMain (.spawn (k + 1)))
  | notSpawned {k : Nat} (h : s.main = .spawn k) (hk : k < N) :
      MainMove N s (s.setMain (.spawn (k + 1)))
  | allSpawned {k : Nat} (h : s.main = .spawn k) (hk : ¬ k < N) : MainMove N s (s.setMain .join)

/-- What a step of `main` can do. -/
theorem mainMove_of_mainStep {ok : Bool} (h : mainStep N s ok = some s') : MainMove N s s' := by
  unfold mainStep at h
  split at h
  case h_1 hm =>
    split at h <;> cases h
    · exact .initMutex
    · exact .exit
  case h_2 k hm =>
    split at h
    · split at h <;> cases h
      · exact .initSem hm ‹_›
      · exact .exit
    · cases h
      exact .allSems hm ‹_›
  case h_3 k hm =>
    split at h
    · split at h <;> cases h
      · exact .spawn hm ‹_›
      · exact .notSpawned hm ‹_›
    · cases h
      exact .allSpawned hm ‹_›
  case h_4 => cases h
  case h_5 => cases h

/-- A step that reaches the cell of the philosopher `N` is a fault. -/
theorem Move.isFault_of_reachesLast (h : Move N s e s') (he : e.ReachesLast N) : e.IsFault := by
  cases h with
  | main hs => cases he
  | fault hp hv => trivial
  | @thread i p s' hp hv hs =>
    -- the index is `N`
    refine (Nat.lt_irrefl N ?_).elim
    cases p with
    | setHungry =>
      have hlt : i < N := hv _ rfl
      have hi : i = N := he
      omega
    | test c q =>
      cases q with
      | readLeft =>
        have hlt : getLeft N (target N i c) < N := hv _ rfl
        have ht : target N i c = 1 := he
        rwa [ht, getLeft, if_pos rfl] at hlt
      | readRight =>
        have hlt : getRight N (target N i c) < N := hv _ rfl
        have ht : target N i c + 1 = N := he
        rwa [getRight, if_neg (by omega), ht] at hlt
      | readSelf => cases he
      | setEating => cases he
      | post => cases he
    | _ => cases he

/-! ## The invariant -/

/-- The philosopher `t` sits beside the philosopher `N`. -/
def Beside (N t : Nat) : Prop :=
  t = 1 ∨ t + 1 = N

/-- How far a call of `test(t)` gets before the cell of the philosopher `N` is reached. -/
def Looks (N t : Nat) : TestPoint → Prop
  | .readSelf | .readLeft => True
  | .readRight => t ≠ 1
  | .setEating | .post => ¬ Beside N t

/-- Where the philosopher `i` can be before that cell is reached. -/
def Inner (N i : Nat) : Point → Prop
  | .think | .takeMutex | .setHungry => True
  | .test c p => i ≠ N ∧ (c ≠ .own → ¬ Beside N i) ∧ Looks N (target N i c) p
  | .leaveTake | .waitSem => i ≠ N
  | .eat | .putMutex | .setThinking | .leavePut => i ≠ N ∧ ¬ Beside N i

/-- `mutex` and the first `k` semaphores are initialised. -/
def Ready (s : Process) (k : Nat) : Prop :=
  s.mutex.isSome = true ∧ ∀ j < k, (s.sem j).isSome = true

/-- What `main` has done at its place. -/
def MainPoint.Done (N : Nat) (s : Process) : MainPoint → Prop
  | .initSem k => k ≤ N ∧ Ready s k
  | .spawn k => k ≤ N ∧ Ready s N
  | _ => True

/-- What holds in every state before a step reaches that cell. -/
structure Inv (N : Nat) (s : Process) : Prop where
  main : s.main.Done N s
  ids : ∀ i p, s.point i = some p → 1 ≤ i ∧ i ≤ N
  inner : ∀ i p, s.point i = some p → Inner N i p
  ready : ∀ i p, s.point i = some p → Ready s N
  asleep : ∀ t, Beside N t → s.sem t = none ∨ s.sem t = some 0

theorem inv_start (N : Nat) : Inv N start where
  main := trivial
  ids _ _ h := nomatch h
  inner _ _ h := nomatch h
  ready _ _ h := nomatch h
  asleep _ _ := .inl rfl

/-- The philosophers that `test` is called for before that cell is reached are others than `N`. -/
theorem target_lt (hi : 1 ≤ i) (hN : i ≤ N) (hne : i ≠ N) (hc : c ≠ .own → ¬ Beside N i) :
    1 ≤ target N i c ∧ target N i c < N := by
  cases c with
  | own => exact ⟨hi, by simp only [target]; omega⟩
  | left =>
    have hb := hc nofun
    simp only [Beside, not_or] at hb
    simp only [target, getLeft, if_neg hb.1]
    omega
  | right =>
    have hb := hc nofun
    simp only [Beside, not_or] at hb
    simp only [target, getRight, if_neg hne]
    omega

/-- As long as nobody has reached the cell of the philosopher `N`, every cell used is valid. -/
theorem Inv.valid (h : Inv N s) (hp : s.point i = some p) (hl : ¬ ReachesLast N i p) :
    ∀ c ∈ uses N i p, c.Valid N s := by
  obtain ⟨hi, hN⟩ := h.ids i p hp
  obtain ⟨hmutex, hsem⟩ := h.ready i p hp
  have hin := h.inner i p hp
  intro x hx
  cases p with
  | think => cases hx
  | eat => cases hx
  | takeMutex | leaveTake | putMutex | leavePut =>
    cases hx
    exact hmutex
  | setHungry =>
    cases hx
    exact Nat.lt_of_le_of_ne hN hl
  | setThinking =>
    cases hx
    exact Nat.lt_of_le_of_ne hN hin.1
  | waitSem =>
    cases hx
    have hlt : i < N := Nat.lt_of_le_of_ne hN hin
    exact ⟨Nat.lt_succ_of_lt hlt, hsem i hlt⟩
  | test c q =>
    obtain ⟨hone, hlt⟩ := target_lt hi hN hin.1 hin.2.1
    cases q with
    | readSelf | setEating =>
      cases hx
      exact hlt
    | post =>
      cases hx
      exact ⟨Nat.lt_succ_of_lt hlt, hsem _ hlt⟩
    | readLeft =>
      cases hx
      have hne : target N i c ≠ 1 := hl
      simp only [Cell.Valid, getLeft, if_neg hne]
      omega
    | readRight =>
      cases hx
      have hne : target N i c + 1 ≠ N := hl
      simp only [Cell.Valid, getRight, if_neg (Nat.ne_of_lt hlt)]
      omega

/-! ## What a step preserves -/

/-- A wait that goes through takes one unit. -/
theorem sem_wait_eq_some {v : Option Nat} {n : Nat} (h : sem_wait v = some n) :
    v = some (n + 1) := by
  unfold sem_wait at h
  split at h
  · cases h
    rfl
  · cases h

@[simp] theorem isSome_sem_post (v : Option Nat) : (sem_post v).isSome = v.isSome :=
  Option.isSome_map

/-- Semaphores stay initialised. -/
theorem Ready.update (h : Ready s k) (v : Nat) (t : Nat) :
    ∀ j < k, (Function.update s.sem t (some v) j).isSome = true := by
  intro j hj
  by_cases hjt : j = t
  · subst hjt
    rw [Function.update_self]
    rfl
  · rw [Function.update_of_ne hjt]
    exact h.2 j hj

/-- The steps of the philosophers leave the semaphores initialised. -/
theorem Ready.threadStep (h : Ready s k) (hs : threadStep N s i p = some s') : Ready s' k := by
  cases p with
  | takeMutex | putMutex =>
    obtain ⟨v, -, rfl⟩ := Option.map_eq_some_iff.1 hs
    exact ⟨rfl, h.2⟩
  | waitSem =>
    obtain ⟨v, -, rfl⟩ := Option.map_eq_some_iff.1 hs
    exact ⟨h.1, h.update v i⟩
  | leaveTake | leavePut =>
    cases hs
    exact ⟨(isSome_sem_post _).trans h.1, h.2⟩
  | think | setHungry | eat | setThinking =>
    cases hs
    exact h
  | test c q =>
    cases hs
    cases q with
    | readSelf | readLeft | readRight | setEating => exact h
    | post =>
      refine ⟨h.1, fun j hj => ?_⟩
      simp only [testStep, Process.setPoint_sem, Process.setSem_sem, Function.update_apply]
      split
      case isTrue ht => rw [isSome_sem_post, ← ht, h.2 j hj]
      case isFalse => exact h.2 j hj

/-- The steps of the philosophers leave `main` where it is. -/
theorem main_of_threadStep (hs : threadStep N s i p = some s') : s'.main = s.main := by
  cases p with
  | takeMutex | putMutex | waitSem =>
    obtain ⟨v, -, rfl⟩ := Option.map_eq_some_iff.1 hs
    rfl
  | test c q =>
    cases hs
    cases q <;> rfl
  | _ =>
    cases hs
    rfl

/-- A step moves its own philosopher only. -/
theorem point_of_threadStep (hs : threadStep N s i p = some s') (hj : j ≠ i) :
    s'.point j = s.point j := by
  cases p with
  | takeMutex | putMutex | waitSem =>
    obtain ⟨v, -, rfl⟩ := Option.map_eq_some_iff.1 hs
    exact Function.update_of_ne hj _ _
  | test c q =>
    cases hs
    cases q <;> exact Function.update_of_ne hj _ _
  | _ =>
    cases hs
    exact Function.update_of_ne hj _ _

/-- The two philosophers beside `N` are not woken. -/
theorem Inv.asleep_threadStep (h : Inv N s) (hp : s.point i = some p)
    (hs : threadStep N s i p = some s') (ht : Beside N t) :
    s'.sem t = none ∨ s'.sem t = some 0 := by
  have hin := h.inner i p hp
  cases p with
  | takeMutex | putMutex =>
    obtain ⟨v, -, rfl⟩ := Option.map_eq_some_iff.1 hs
    exact h.asleep t ht
  | waitSem =>
    obtain ⟨v, hv, rfl⟩ := Option.map_eq_some_iff.1 hs
    have hne : t ≠ i := by
      rintro rfl
      have hpos := sem_wait_eq_some hv
      rcases h.asleep t ht with h₀ | h₀ <;> simp [h₀] at hpos
    simp only [Process.setPoint_sem, Process.setSem_sem, Function.update_of_ne hne]
    exact h.asleep t ht
  | leaveTake | leavePut | think | setHungry | eat | setThinking =>
    cases hs
    exact h.asleep t ht
  | test c q =>
    cases hs
    cases q with
    | readSelf | readLeft | readRight | setEating => exact h.asleep t ht
    | post =>
      have hne : t ≠ target N i c := by
        rintro rfl
        exact hin.2.2 ht
      simp only [testStep, Process.setPoint_sem, Process.setSem_sem, Function.update_of_ne hne]
      exact h.asleep t ht

/-- The test of a neighbour stays inside the array. -/
theorem inner_next (hi : i ≠ N) (hc : c ≠ .own → ¬ Beside N i) : Inner N i c.next := by
  cases c with
  | own => exact hi
  | left => exact ⟨hi, fun _ => hc nofun, trivial⟩
  | right => exact ⟨hi, hc nofun⟩

/-- The philosopher that moves stays where it may be. -/
theorem Inv.inner_threadStep (h : Inv N s) (hp : s.point i = some p) (hl : ¬ ReachesLast N i p)
    (hs : threadStep N s i p = some s') : ∃ p', s'.point i = some p' ∧ Inner N i p' := by
  have hin := h.inner i p hp
  cases p with
  | takeMutex =>
    obtain ⟨v, -, rfl⟩ := Option.map_eq_some_iff.1 hs
    exact ⟨_, Function.update_self _ _ _, trivial⟩
  | putMutex =>
    obtain ⟨v, -, rfl⟩ := Option.map_eq_some_iff.1 hs
    exact ⟨_, Function.update_self _ _ _, hin⟩
  | waitSem =>
    obtain ⟨v, hv, rfl⟩ := Option.map_eq_some_iff.1 hs
    refine ⟨_, Function.update_self _ _ _, hin, fun hb => ?_⟩
    -- the philosophers beside `N` have nothing to wake up for
    have hpos := sem_wait_eq_some hv
    rcases h.asleep i hb with h₀ | h₀ <;> simp [h₀] at hpos
  | think | leavePut =>
    cases hs
    exact ⟨_, Function.update_self _ _ _, trivial⟩
  | setHungry =>
    cases hs
    exact ⟨_, Function.update_self _ _ _, hl, fun hc => absurd rfl hc, trivial⟩
  | leaveTake | eat =>
    cases hs
    exact ⟨_, Function.update_self _ _ _, hin⟩
  | setThinking =>
    cases hs
    exact ⟨_, Function.update_self _ _ _, hin.1, fun _ => hin.2, trivial⟩
  | test c q =>
    cases hs
    cases q with
    | readSelf =>
      refine ⟨_, Function.update_self _ _ _, ?_⟩
      split
      · exact ⟨hin.1, hin.2.1, trivial⟩
      · exact inner_next hin.1 hin.2.1
    | readLeft =>
      refine ⟨_, Function.update_self _ _ _, ?_⟩
      split
      · exact ⟨hin.1, hin.2.1, hl⟩
      · exact inner_next hin.1 hin.2.1
    | readRight =>
      refine ⟨_, Function.update_self _ _ _, ?_⟩
      split
      · exact ⟨hin.1, hin.2.1, fun hb => hb.elim hin.2.2 hl⟩
      · exact inner_next hin.1 hin.2.1
    | setEating => exact ⟨_, Function.update_self _ _ _, hin⟩
    | post => exact ⟨_, Function.update_self _ _ _, inner_next hin.1 hin.2.1⟩

/-- A step of a philosopher that does not reach the last cell keeps the invariant. -/
theorem Inv.threadStep (h : Inv N s) (hp : s.point i = some p) (hl : ¬ ReachesLast N i p)
    (hs : threadStep N s i p = some s') : Inv N s' := by
  have hready : Ready s' N := (h.ready i p hp).threadStep hs
  have hids := h.ids i p hp
  refine ⟨?_, fun j q hq => ?_, fun j q hq => ?_, fun _ _ _ => hready, fun t ht => ?_⟩
  · rw [main_of_threadStep hs]
    have hmain := h.main
    cases hm : s.main with
    | initSem k =>
      rw [hm] at hmain
      exact ⟨hmain.1, hmain.2.threadStep hs⟩
    | spawn k =>
      rw [hm] at hmain
      exact ⟨hmain.1, hready⟩
    | _ => trivial
  · by_cases hj : j = i
    · subst hj
      exact hids
    · rw [point_of_threadStep hs hj] at hq
      exact h.ids j q hq
  · by_cases hj : j = i
    · subst hj
      obtain ⟨p', hp', hin⟩ := h.inner_threadStep hp hl hs
      rw [hp'] at hq
      cases hq
      exact hin
    · rw [point_of_threadStep hs hj] at hq
      exact h.inner j q hq
  · exact h.asleep_threadStep hp hs ht

/-- The initialisation of `mutex` keeps the invariant. -/
theorem Inv.initMutex (h : Inv N s) : Inv N ((s.setMutex (some 1)).setMain (.initSem 0)) where
  main := ⟨Nat.zero_le N, rfl, fun j hj => (Nat.not_lt_zero j hj).elim⟩
  ids := h.ids
  inner := h.inner
  ready i p hp := ⟨rfl, (h.ready i p hp).2⟩
  asleep := h.asleep

/-- A semaphore begins with the value 0, so that its philosopher sleeps. -/
theorem Inv.initSem (h : Inv N s) (hm : s.main = .initSem k) (hlt : k < N) :
    Inv N ((s.setSem k (some 0)).setMain (.initSem (k + 1))) := by
  have hmain := h.main
  rw [hm] at hmain
  obtain ⟨-, hready⟩ := hmain
  refine ⟨⟨hlt, hready.1, fun j hj => ?_⟩, h.ids, h.inner, fun j p hp => ?_, fun t ht => ?_⟩
  · by_cases hjk : j = k
    · subst hjk
      simp
    · simpa [hjk] using hready.2 j (by omega)
  · exact ⟨hready.1, (h.ready j p hp).update 0 k⟩
  · by_cases htk : t = k
    · subst htk
      simp
    · simpa [htk] using h.asleep t ht

/-- The thread that `main` creates finds `mutex` and the semaphores initialised. -/
theorem Inv.spawn (h : Inv N s) (hm : s.main = .spawn k) (hlt : k < N) :
    Inv N ((s.setPoint (k + 1) .think).setMain (.spawn (k + 1))) := by
  have hmain := h.main
  rw [hm] at hmain
  obtain ⟨-, hready⟩ := hmain
  refine ⟨⟨hlt, hready⟩, fun j p hp => ?_, fun j p hp => ?_, fun _ _ _ => hready, h.asleep⟩
  · by_cases hj : j = k + 1
    · omega
    · exact h.ids j p (by simpa [hj] using hp)
  · by_cases hj : j = k + 1
    · obtain rfl : Point.think = p := by simpa [hj] using hp
      trivial
    · exact h.inner j p (by simpa [hj] using hp)

/-- A step of `main` keeps the invariant. -/
theorem Inv.mainStep {ok : Bool} (h : Inv N s) (hs : mainStep N s ok = some s') : Inv N s' := by
  have hmain := h.main
  cases mainMove_of_mainStep hs with
  | initMutex => exact h.initMutex
  | exit => exact { h with main := trivial }
  | initSem hm hlt => exact h.initSem hm hlt
  | allSems hm hge =>
    rw [hm] at hmain
    obtain ⟨hle, hready⟩ := hmain
    have heq := Nat.le_antisymm hle (Nat.le_of_not_lt hge)
    exact { h with main := ⟨Nat.zero_le N, heq ▸ hready⟩ }
  | spawn hm hlt => exact h.spawn hm hlt
  | notSpawned hm hlt =>
    rw [hm] at hmain
    exact { h with main := ⟨hlt, hmain.2⟩ }
  | allSpawned => exact { h with main := trivial }

/-- A step that does not reach the cell of the philosopher `N` is no fault and keeps the
invariant. -/
theorem Inv.move (h : Inv N s) (hm : Move N s e s') (he : ¬ e.ReachesLast N) :
    ¬ e.IsFault ∧ Inv N s' := by
  cases hm with
  | main hs => exact ⟨nofun, h.mainStep hs⟩
  | thread hp hv hs => exact ⟨nofun, h.threadStep hp he hs⟩
  | fault hp hv => exact absurd (h.valid hp he) hv

/-! ## Runs -/

/-- Whatever the order of the steps and for every number of philosophers: a run is without a fault
exactly as long as philosopher `N` has not set its state to `HUNGRY`, and `test(1)` and
`test(N - 1)` have not looked at the side where it sits. -/
theorem arrays_respected_iff {τ : List Event} (h : Run (StepBy (step N)) start τ s) :
    (∀ e ∈ τ, ¬ e.IsFault) ↔ ∀ e ∈ τ, ¬ e.ReachesLast N := by
  have hinv : (∀ e ∈ τ, e.ReachesLast N → e.IsFault) ∧
      ((∀ e ∈ τ, ¬ e.ReachesLast N) → (∀ e ∈ τ, ¬ e.IsFault) ∧ Inv N s) := by
    refine h.invariant (fun τ s => (∀ e ∈ τ, e.ReachesLast N → e.IsFault) ∧
      ((∀ e ∈ τ, ¬ e.ReachesLast N) → (∀ e ∈ τ, ¬ e.IsFault) ∧ Inv N s))
      ⟨nofun, fun _ => ⟨nofun, inv_start N⟩⟩ ?_
    -- the invariant is kept only as long as nobody has reached the cell
    intro τ s e s' _ ⟨hfault, hfine⟩ ⟨a, ha⟩
    obtain ⟨-, hm⟩ := move_of_step ha
    refine ⟨List.forall_mem_cons.2 ⟨hm.isFault_of_reachesLast, hfault⟩, fun hall => ?_⟩
    obtain ⟨he, hall⟩ := List.forall_mem_cons.1 hall
    obtain ⟨hτ, hs⟩ := hfine hall
    obtain ⟨he', hs'⟩ := hs.move hm he
    exact ⟨List.forall_mem_cons.2 ⟨he', hτ⟩, hs'⟩
  exact ⟨fun hall e he hr => hall e he (hinv.1 e he hr), fun hall => (hinv.2 hall).1⟩

/-- The schedule in which `main` creates sixteen threads and then the philosopher `i` takes `n`
steps. -/
def alone (i n : Nat) : List Action :=
  List.replicate 35 (.main true) ++ List.replicate n (.thread i)

/-- The eighth of sixteen philosophers eats and thinks again, all cells being valid. -/
theorem arrays_respected_iff_eighth : ∃ τ s, Run (StepBy (step 16)) start τ s ∧
    s.point 8 = some .think ∧ ((∀ e ∈ τ, ¬ e.IsFault) ↔ ∀ e ∈ τ, ¬ e.ReachesLast 16) :=
  ⟨_, _, run_of_get (l := alone 8 16) (by decide +kernel), by decide +kernel,
    arrays_respected_iff (run_of_get _)⟩

/-- The sixteenth philosopher writes `state[16]` when it gets hungry. -/
theorem sixteenth_overruns : ¬ ∀ N, 1 ≤ N → ∀ (τ : List Event) (s : Process),
    Run (StepBy (step N)) start τ s → ∀ e ∈ τ, ¬ e.IsFault := by
  intro hall
  have hlast : ((perform (step 16) [] start (alone 16 3)).get (by decide +kernel)).1.head? =
      some (.fault 16 .setHungry) := by decide +kernel
  exact hall 16 (by omega) _ _ (run_of_get _) _ (List.mem_of_mem_head? hlast) trivial

/-- `main` never initialises the semaphore of the philosopher `N`. -/
theorem last_sem_uninitialised {τ : List Event} (h : Run (StepBy (step N)) start τ s) (hj : N ≤ j) :
    s.sem j = none := by
  refine h.invariant (fun _ s => s.sem j = none) rfl ?_
  intro τ s e s' _ hnone ⟨a, ha⟩
  obtain ⟨-, hm⟩ := move_of_step ha
  cases hm with
  | fault hp hv => exact hnone
  | main hs =>
    cases mainMove_of_mainStep hs with
    | @initSem k hm hlt =>
      have hne : j ≠ k := by omega
      simpa [hne] using hnone
    | _ => exact hnone
  | @thread i p _ hp hv hs =>
    cases p with
    | takeMutex | putMutex =>
      obtain ⟨v, -, rfl⟩ := Option.map_eq_some_iff.1 hs
      exact hnone
    | waitSem =>
      obtain ⟨v, hv, rfl⟩ := Option.map_eq_some_iff.1 hs
      -- nobody gets past a semaphore that was not initialised
      have hne : j ≠ i := by
        rintro rfl
        rw [hnone] at hv
        cases hv
      simpa [hne] using hnone
    | test c q =>
      cases hs
      cases q with
      | readSelf | readLeft | readRight | setEating => exact hnone
      | post =>
        simp only [testStep, Process.setPoint_sem, Process.setSem_sem, Function.update_apply]
        split
        case isTrue ht => rw [← ht, hnone, sem_post, Option.map_none]
        case isFalse => exact hnone
    | leaveTake | leavePut | think | setHungry | eat | setThinking =>
      cases hs
      exact hnone

/-! ## The first use of the cell outside -/

/-- `main` gets through its first loop. -/
theorem exists_run_initSem (hk : k ≤ N) : ∃ τ s, Run (StepBy (step N)) start τ s ∧
    s.main = .initSem k ∧ s.mutex = some 1 ∧ s.crashed = false := by
  induction k with
  | zero => exact ⟨_, _, .step .start ⟨.main true, rfl⟩, rfl, rfl, rfl⟩
  | succ k ih =>
    obtain ⟨τ, s, hrun, hm, hmutex, hc⟩ := ih (by omega)
    have hstep : step N s (.main true) =
        some (.main, (s.setSem k (some 0)).setMain (.initSem (k + 1))) := by
      simp [step, hc, Arrays.mainStep, hm, show k < N by omega]
    exact ⟨_, _, .step hrun ⟨_, hstep⟩, rfl, hmutex, hc⟩

/-- `main` gets through its second loop, and the last thread that it created has not begun. -/
theorem exists_run_spawn (hk : k ≤ N) : ∃ τ s, Run (StepBy (step N)) start τ s ∧
    s.main = .spawn k ∧ s.mutex = some 1 ∧ s.crashed = false ∧
    (1 ≤ k → s.point k = some .think) := by
  induction k with
  | zero =>
    obtain ⟨τ, s, hrun, hm, hmutex, hc⟩ := exists_run_initSem (Nat.le_refl N)
    have hstep : step N s (.main true) = some (.main, s.setMain (.spawn 0)) := by
      simp [step, hc, Arrays.mainStep, hm]
    exact ⟨_, _, .step hrun ⟨_, hstep⟩, rfl, hmutex, hc, nofun⟩
  | succ k ih =>
    obtain ⟨τ, s, hrun, hm, hmutex, hc, -⟩ := ih (by omega)
    have hstep : step N s (.main true) =
        some (.main, (s.setPoint (k + 1) .think).setMain (.spawn (k + 1))) := by
      simp [step, hc, Arrays.mainStep, hm, show k < N by omega]
    exact ⟨_, _, .step hrun ⟨_, hstep⟩, rfl, hmutex, hc, fun _ => Function.update_self _ _ _⟩

/-- At every table there is a run in which the last philosopher gets hungry, outside the array. -/
theorem exists_fault (hN : 1 ≤ N) :
    ∃ τ s, Run (StepBy (step N)) start (.fault N .setHungry :: τ) s := by
  obtain ⟨τ, s, hrun, -, hmutex, hc, hp⟩ := exists_run_spawn (Nat.le_refl N)
  have hp := hp hN
  have hthink : step N s (.thread N) = some (.thread N .think, s.setPoint N .takeMutex) := by
    simp [step, hc, hp, uses, threadStep]
  have htake : step N (s.setPoint N .takeMutex) (.thread N) =
      some (.thread N .takeMutex,
        ((s.setPoint N .takeMutex).setMutex (some 0)).setPoint N .setHungry) := by
    simp [step, hc, hmutex, uses, Cell.Valid, threadStep, sem_wait]
  let s₁ := ((s.setPoint N .takeMutex).setMutex (some 0)).setPoint N .setHungry
  have hungry : step N s₁ (.thread N) =
      some (.fault N .setHungry, { s₁ with crashed := true }) := by
    simp [s₁, step, hc, uses, Cell.Valid]
  exact ⟨_, _, .step (.step (.step hrun ⟨_, hthink⟩) ⟨_, htake⟩) ⟨_, hungry⟩⟩

end EE516.Philosopher.Arrays
