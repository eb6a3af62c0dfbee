import EE516.Philosopher.Table

/-!
# Forks at a table of any size

Safety and progress need one joint invariant: the state of a philosopher is changed by its
neighbours, and its semaphore is posted by one thread and consumed by another. `Inv s o` says of a
state `s` and of the thread `o` that holds `mutex` what each thread has left to do. The clause
`served` is the one against a lost wake-up: a hungry philosopher without an eating neighbour is
still to be looked at by the thread in the section.
-/

set_option autoImplicit false

namespace EE516.Philosopher

open Foundations

variable {N : Nat} {s s' : State N} {e i j k t : Id N}

/-! ## What a step does -/

/-- The condition at a read of `test(t)` holds, and the call goes on. -/
inductive Passes (s : State N) (t : Id N) : TestPoint → TestPoint → Prop
  | readSelf (h : s.state t = .HUNGRY) : Passes s t .readSelf .readLeft
  | readLeft (h : s.state t.left ≠ .EATING) : Passes s t .readLeft .readRight
  | readRight (h : s.state t.right ≠ .EATING) : Passes s t .readRight .setEating

/-- The condition at a read of `test(t)` fails, and the call ends. -/
inductive Skips (s : State N) (t : Id N) : TestPoint → Prop
  | readSelf (h : s.state t ≠ .HUNGRY) : Skips s t .readSelf
  | readLeft (h : s.state t.left = .EATING) : Skips s t .readLeft
  | readRight (h : s.state t.right = .EATING) : Skips s t .readRight

/-- Everything that a step of the thread `i` can do. -/
inductive Move (s : State N) (i : Id N) : State N → Prop
  | think (h : s.point i = .think) : Move s i (s.setPoint i .takeMutex)
  | takeMutex (h : s.point i = .takeMutex) (hm : 0 < s.mutex) :
      Move s i ((s.setMutex (s.mutex - 1)).setPoint i .setHungry)
  | setHungry (h : s.point i = .setHungry) :
      Move s i ((s.setState i .HUNGRY).setPoint i (.test .own .readSelf))
  | pass {c : TestCall} {p p' : TestPoint} (h : s.point i = .test c p)
      (hp : Passes s (c.target i) p p') : Move s i (s.setPoint i (.test c p'))
  | skip {c : TestCall} {p : TestPoint} (h : s.point i = .test c p)
      (hp : Skips s (c.target i) p) : Move s i (s.setPoint i c.next)
  | setEating {c : TestCall} (h : s.point i = .test c .setEating) :
      Move s i ((s.setState (c.target i) .EATING).setPoint i (.test c .post))
  | post {c : TestCall} (h : s.point i = .test c .post) :
      Move s i ((s.setSem (c.target i) (s.sem (c.target i) + 1)).setPoint i c.next)
  | leaveTake (h : s.point i = .leaveTake) :
      Move s i ((s.setMutex (s.mutex + 1)).setPoint i .waitSem)
  | waitSem (h : s.point i = .waitSem) (hm : 0 < s.sem i) :
      Move s i ((s.setSem i (s.sem i - 1)).setPoint i .eat)
  | eat (h : s.point i = .eat) : Move s i (s.setPoint i .putMutex)
  | putMutex (h : s.point i = .putMutex) (hm : 0 < s.mutex) :
      Move s i ((s.setMutex (s.mutex - 1)).setPoint i .setThinking)
  | setThinking (h : s.point i = .setThinking) :
      Move s i ((s.setState i .THINKING).setPoint i (.test .left .readSelf))
  | leavePut (h : s.point i = .leavePut) : Move s i ((s.setMutex (s.mutex + 1)).setPoint i .think)

theorem move_of_testStep {c : TestCall} {p : TestPoint} (h : s.point i = .test c p) :
    Move s i (testStep s i c p) := by
  cases p with
  | readSelf =>
    simp only [testStep]
    split
    case isTrue hs => exact .pass h (.readSelf hs)
    case isFalse hs => exact .skip h (.readSelf hs)
  | readLeft =>
    simp only [testStep]
    split
    case isTrue hs => exact .pass h (.readLeft hs)
    case isFalse hs => exact .skip h (.readLeft (not_not.1 hs))
  | readRight =>
    simp only [testStep]
    split
    case isTrue hs => exact .pass h (.readRight hs)
    case isFalse hs => exact .skip h (.readRight (not_not.1 hs))
  | setEating => exact .setEating h
  | post => exact .post h

theorem move_of_step (h : step s i = some (e, s')) : Move s i s' := by
  unfold step at h
  split at h
  case h_4 c p hp =>
    cases h
    exact move_of_testStep hp
  all_goals
    (try split at h) <;> cases h
    constructor <;> assumption

/-! ## The invariant -/

/-- Between `sem_wait(&mutex)` and `sem_post(&mutex)`. -/
def Point.InSection : Point → Prop
  | .setHungry | .test _ _ | .leaveTake | .setThinking | .leavePut => True
  | _ => False

/-- In `take_forks`, hungry since `state[i] = HUNGRY` and not past `sem_wait(&sem[i])`. -/
def Point.Waiting : Point → Prop
  | .test .own _ | .leaveTake | .waitSem => True
  | _ => False

/-- Past `sem_wait(&sem[i])` and not yet past `state[i] = THINKING` in `put_forks`. -/
def Point.HasForks : Point → Prop
  | .eat | .putMutex | .setThinking => True
  | _ => False

/-- The thread `k` is in `test(i)` between `state[i] = EATING` and `sem_post(&sem[i])`. -/
def Posting (s : State N) (k i : Id N) : Prop :=
  ∃ c, s.point k = .test c .post ∧ TestCall.target c k = i

/-- The thread `o` holds `mutex`, or nobody. -/
def Held (s : State N) (o : Option (Id N)) : Prop :=
  (∀ k, (s.point k).InSection ↔ o = some k) ∧ s.mutex = if o.isNone then 1 else 0

/-- The state of a philosopher fits the point its thread is at. -/
def Agrees : Point → Activity → Prop
  | .test .own .post, a => a = .EATING
  | .test .own _, a => a = .HUNGRY
  | .leaveTake, a | .waitSem, a => a ≠ .THINKING
  | .eat, a | .putMutex, a | .setThinking, a => a = .EATING
  | _, a => a = .THINKING

/-- What a call of `test(t)` knows at its next access. -/
def Checked (s : State N) (t : Id N) : TestPoint → Prop
  | .readSelf => True
  | .readLeft => s.state t = .HUNGRY
  | .readRight => s.state t = .HUNGRY ∧ s.state t.left ≠ .EATING
  | .setEating => s.state t = .HUNGRY ∧ s.state t.left ≠ .EATING ∧ s.state t.right ≠ .EATING
  | .post => s.state t = .EATING ∧ s.sem t = 0 ∧ (s.point t).Waiting

/-- The thread `k` is still to finish a `test(i)` that can let `i` eat. -/
def Pending (k i : Id N) : Point → Prop
  | .test .own p => p ≠ .post ∧ i = k
  | .test .left p => (p ≠ .post ∧ i = k.left) ∨ i = k.right
  | .test .right p => p ≠ .post ∧ i = k.right
  | _ => False

/-- What holds in every state, while `o` is in the monitor. -/
structure Inv (s : State N) (o : Option (Id N)) : Prop where
  held : Held s o
  agrees : ∀ i, Agrees (s.point i) (s.state i)
  checked : ∀ k c p, s.point k = .test c p → Checked s (c.target k) p
  sem_le : ∀ i, s.sem i ≤ 1
  sem : ∀ i, s.sem i = 1 ↔ s.state i = .EATING ∧ (s.point i).Waiting ∧ ¬ ∃ k, Posting s k i
  neighbours : ∀ i, s.state i = .EATING → s.state i.right ≠ .EATING
  served : ∀ i, s.state i = .HUNGRY →
    s.state i.left = .EATING ∨ s.state i.right = .EATING ∨ ∃ k, Pending k i (s.point k)

variable {o o' : Option (Id N)} {c : TestCall} {p p' : TestPoint} {a : Activity}

/-- Before the threads start nobody is in the section and nobody is hungry. -/
theorem inv_start : Inv (start N) none where
  held := ⟨fun _ => iff_of_false id nofun, rfl⟩
  agrees _ := rfl
  checked _ _ _ h := nomatch h
  sem_le _ := Nat.zero_le 1
  sem _ := iff_of_false nofun fun h => nomatch h.1
  neighbours _ h := nomatch h
  served _ h := nomatch h

/-- A philosopher in `test` holds `mutex`. -/
theorem Held.of_test (h : Held s o) (hk : s.point k = .test c p) : o = some k := by
  apply (h.1 k).1
  rw [hk]
  trivial

/-! ## The calls of `test` -/

theorem next_inSection : c.next.InSection := by
  cases c <;> trivial

theorem waiting_test : (Point.test c p).Waiting ↔ c = .own := by
  cases c <;> simp [Point.Waiting]

theorem waiting_next : c.next.Waiting ↔ c = .own := by
  cases c <;> simp [Point.Waiting, TestCall.next]

/-- A call goes on, if at all, with the first read of the next call. -/
theorem readSelf_of_next {c' : TestCall} (h : c.next = .test c' p) : p = .readSelf := by
  cases c
  case left =>
    cases h
    rfl
  all_goals nomatch h

/-- A test is of the caller or of somebody else. -/
theorem target_eq_or (hN : 2 ≤ N) (c : TestCall) (i : Id N) :
    c = .own ∧ c.target i = i ∨ c ≠ .own ∧ c.target i ≠ i := by
  cases c
  case own => exact .inl ⟨rfl, rfl⟩
  case left => exact .inr ⟨nofun, Id.left_ne hN i⟩
  case right => exact .inr ⟨nofun, Id.right_ne hN i⟩

theorem Agrees.pass (h : Agrees (.test c p) a) (hp : Passes s t p p') :
    Agrees (.test c p') a := by
  cases hp <;> cases c <;> exact h

theorem Agrees.next (h : Agrees (.test c p) a) : Agrees c.next a := by
  cases c <;> cases p <;> simp_all [Agrees, TestCall.next]

theorem Agrees.waitSem_of_hungry {p : Point} (h : Agrees p .HUNGRY) (hp : ¬ p.InSection) :
    p = .waitSem := by
  cases p <;> simp_all [Agrees, Point.InSection]

/-- A hungry neighbour of the thread in the section waits for its semaphore. -/
theorem Inv.target_waits (h : Inv s o) (hi : s.point i = .test c p) (hc : c.target i ≠ i)
    (ht : s.state (c.target i) = .HUNGRY) : s.point (c.target i) = .waitSem := by
  have hio : o = some i := h.held.of_test hi
  have ha : Agrees (s.point (c.target i)) .HUNGRY := ht ▸ h.agrees _
  refine ha.waitSem_of_hungry fun hs => hc ?_
  exact Option.some.inj (((h.held.1 _).1 hs).symm.trans hio)

theorem Pending.pass (h : Pending i j (.test c p)) (hp : Passes s t p p') :
    Pending i j (.test c p') := by
  cases hp <;> cases c <;> simp_all [Pending]

/-- A call that skips its target found it not hungry, or next to somebody who eats. -/
theorem Pending.skip (h : Pending i j (.test c p)) (hp : Skips s (c.target i) p)
    (hj : s.state j = .HUNGRY) :
    s.state j.left = .EATING ∨ s.state j.right = .EATING ∨ Pending i j c.next := by
  cases hp <;> cases c <;> grind [Pending, TestCall.next, TestCall.target]

theorem Pending.setEating (h : Pending i j (.test c .setEating)) :
    j = c.target i ∨ Pending i j (.test c .post) := by
  cases c <;> simp_all [Pending, TestCall.target]

theorem Pending.post (h : Pending i j (.test c .post)) : Pending i j c.next := by
  cases c <;> simp_all [Pending, TestCall.next]

/-! ## What a step preserves -/

attribute [local grind =] State.setPoint_point State.setPoint_state State.setPoint_sem
  State.setPoint_mutex State.setState_point State.setState_state State.setState_sem
  State.setState_mutex State.setSem_point State.setSem_state State.setSem_sem State.setSem_mutex
  State.setMutex_point State.setMutex_state State.setMutex_sem State.setMutex_mutex
  Function.update_apply

/-- A move leaves the other philosophers where they are. -/
theorem point_of_move (hm : Move s i s') (hk : k ≠ i) : s'.point k = s.point k := by
  cases hm <;> simp [hk]

/-- The mutex is taken by the thread that enters the section and given back by the one that
leaves it. -/
theorem held_step (h : Held s o) (hm : Move s i s') : ∃ o', Held s' o' := by
  obtain ⟨ho, hx⟩ := h
  have hi := ho i
  cases hm
  case takeMutex h hs | putMutex h hs =>
    refine ⟨some i, ?_⟩
    grind [Held, Point.InSection]
  case leaveTake h | leavePut h =>
    refine ⟨none, ?_⟩
    grind [Held, Point.InSection]
  all_goals
    refine ⟨o, ?_⟩
    have := @next_inSection
    grind [Held, Point.InSection]

/-- Every move keeps position and state of each philosopher in agreement. -/
theorem agrees_step (hN : 2 ≤ N) (h : Inv s o) (hm : Move s i s') (j : Id N) :
    Agrees (s'.point j) (s'.state j) := by
  have hj := h.agrees j
  have hi := h.agrees i
  cases hm
  case pass c p p' hpt hp =>
    have := (hpt ▸ hi).pass hp
    grind
  case skip c p hpt hp =>
    have := (hpt ▸ hi).next
    grind
  case post c hpt =>
    have := (hpt ▸ hi).next
    grind
  case setEating c hpt =>
    -- the target is the thread itself, or it sleeps on its semaphore
    have ht := (h.checked i c _ hpt).1
    rcases target_eq_or hN c i with ⟨rfl, hc⟩ | ⟨hc, hti⟩
    · grind [Agrees]
    · have hw := h.target_waits hpt hti ht
      cases c <;> grind [Agrees]
  case waitSem hpt hs =>
    -- the semaphore is 1, and so its owner was made eating
    have := h.sem i
    have := h.sem_le i
    grind [Agrees]
  all_goals grind [Agrees]

/-- The own step of a thread in `test`. -/
theorem checked_own (hN : 2 ≤ N) (h : Inv s o) (hm : Move s i s') (hi : s'.point i = .test c p) :
    Checked s' (c.target i) p := by
  cases hm
  case pass c p p' hpt hp =>
    have := h.checked _ _ _ hpt
    cases hp <;> grind [Checked]
  case skip | post =>
    have := readSelf_of_next (by simpa using hi)
    grind [Checked]
  case setEating c hpt =>
    -- a hungry philosopher has no post to consume
    have hc := h.checked _ _ _ hpt
    have := h.sem (c.target i)
    have := h.sem_le (c.target i)
    rcases target_eq_or hN c i with ⟨rfl, hc'⟩ | ⟨hc', hti⟩
    · grind [Checked, Point.Waiting]
    · have hw := h.target_waits hpt hti hc.1
      grind [Checked, Point.Waiting]
  all_goals grind [Checked]

/-- Every move keeps what a test has seen of the neighbours true. -/
theorem checked_step (hN : 2 ≤ N) (h : Inv s o) (hm : Move s i s') (hk : s'.point k = .test c p) :
    Checked s' (c.target k) p := by
  by_cases hki : k = i
  · subst hki
    exact checked_own hN h hm hk
  · -- `k` holds the mutex, and the thread `i` is out of the section
    rw [point_of_move hm hki] at hk
    have hc := h.checked _ _ _ hk
    have hko := h.held.of_test hk
    have := h.held.1 i
    have := h.held.2
    cases hm
    case think | waitSem | eat =>
      cases p <;> grind [Checked, Point.Waiting]
    all_goals grind [Point.InSection]

theorem posting_iff (h : s.point i = .test c .post) : Posting s i j ↔ c.target i = j := by
  grind [Posting]

theorem not_posting_of (h : ∀ c, s.point i ≠ .test c .post) : ¬ Posting s i j := by
  grind [Posting]

/-- Only the thread in the section posts. -/
theorem Posting.eq_of_test (hk : Posting s k j) (h : Held s o) (hi : s.point i = .test c p) :
    k = i := by
  obtain ⟨c', hc', -⟩ := hk
  exact Option.some.inj ((h.of_test hc').symm.trans (h.of_test hi))

theorem not_posting_of_test (h : Held s o) (hi : s.point i = .test c p) (hp : p ≠ .post) :
    ¬ ∃ k, Posting s k j := by
  rintro ⟨k, hk⟩
  cases hk.eq_of_test h hi
  exact not_posting_of (by simp [hi, hp]) hk

theorem posting_of_post (h : Held s o) (hi : s.point i = .test c .post) :
    (∃ k, Posting s k j) ↔ c.target i = j := by
  constructor
  · rintro ⟨k, hk⟩
    cases hk.eq_of_test h hi
    exact (posting_iff hi).1 hk
  · exact fun hj => ⟨i, (posting_iff hi).2 hj⟩

/-- Who is about to post changes with the two last accesses of `test` only. -/
theorem posting_of_move (hm : Move s i s') (h₁ : ∀ c, s.point i ≠ .test c .setEating)
    (h₂ : ∀ c, s.point i ≠ .test c .post) :
    (∃ k, Posting s' k j) ↔ ∃ k, Posting s k j := by
  refine exists_congr fun k => ?_
  by_cases hk : k = i
  · subst hk
    refine iff_of_false (not_posting_of ?_) (not_posting_of h₂)
    cases hm
    case pass c p p' h hp => cases hp <;> simp_all
    case skip c p h hp => cases c <;> simp [TestCall.next]
    all_goals simp_all
  · simp only [Posting, point_of_move hm hk]

/-- The last access of `test`: one more post, and nobody is about to post any more. -/
theorem not_posting_after_post (h : Held s o) (hi : s.point i = .test c .post) :
    ¬ ∃ k, Posting ((s.setSem (c.target i) (s.sem (c.target i) + 1)).setPoint i c.next) k j := by
  rintro ⟨k, hk⟩
  by_cases hki : k = i
  · subst hki
    exact not_posting_of (by cases c <;> simp [TestCall.next]) hk
  · have hk' : Posting s k j := by simpa [Posting, hki] using hk
    exact hki (hk'.eq_of_test h hi)

/-- The semaphore of a philosopher is the one post that it has not consumed yet. -/
theorem sem_step (hN : 2 ≤ N) (h : Inv s o) (h' : Held s' o') (hm : Move s i s') (j : Id N) :
    s'.sem j ≤ 1 ∧
      (s'.sem j = 1 ↔ s'.state j = .EATING ∧ (s'.point j).Waiting ∧ ¬ ∃ k, Posting s' k j) := by
  have hj := h.sem j
  have hl := h.sem_le j
  have hi := h.agrees i
  have hpost := @posting_of_move _ _ _ _ j hm
  cases hm
  case setEating c hpt =>
    -- the target was hungry, so there was nothing to consume, and now the post is on its way
    have hc := h.checked i c _ hpt
    have hn := @not_posting_of_test _ _ _ j _ _ _ h.held hpt nofun
    rw [posting_of_post h' (c := c) (i := i) (by simp)]
    grind [waiting_test, Checked]
  case post c hpt =>
    have hc := h.checked i c _ hpt
    have hb := @posting_of_post _ _ _ j _ _ h.held hpt
    rw [iff_true_intro (not_posting_after_post h.held hpt), and_true]
    rcases target_eq_or hN c i with ⟨rfl, hti⟩ | ⟨hc', hti⟩
    · grind [waiting_test, waiting_next, Checked]
    · grind [waiting_test, waiting_next, Checked]
  case pass c p p' hpt hp =>
    rw [hpost (by cases hp <;> simp [hpt]) (by cases hp <;> simp [hpt])]
    grind [waiting_test]
  case skip c p hpt hp =>
    rw [hpost (by cases hp <;> simp [hpt]) (by cases hp <;> simp [hpt])]
    grind [waiting_test, waiting_next]
  all_goals
    rw [hpost (by simp [*]) (by simp [*])]
    grind [Point.Waiting, Agrees]

/-- Two neighbours never eat: `test` has just looked at both sides of its target. -/
theorem neighbours_step (hN : 2 ≤ N) (h : Inv s o) (hm : Move s i s') (j : Id N)
    (hj : s'.state j = .EATING) : s'.state j.right ≠ .EATING := by
  have hn := h.neighbours j
  cases hm
  case setEating c hpt =>
    have ⟨_, hl, hr⟩ := h.checked i c _ hpt
    have := Id.right_ne hN j
    have := j.left_right
    have := j.right_left
    grind
  all_goals grind

/-- Someone eats next to `j`, or the thread in the section is still to look at it. -/
theorem served_step (h : Inv s o) (hm : Move s i s') (j : Id N) (hj : s'.state j = .HUNGRY) :
    s'.state j.left = .EATING ∨ s'.state j.right = .EATING ∨ ∃ k, Pending k j (s'.point k) := by
  have hi := h.agrees i
  have hleft := j.left_right
  have hright := j.right_left
  by_cases hji : s.state j = .HUNGRY
  · rcases h.served j hji with hl | hr | ⟨k, hk⟩
    · cases hm
      case setThinking hpt =>
        by_cases hil : j.left = i
        · exact .inr (.inr ⟨i, by grind [Pending]⟩)
        · grind
      all_goals grind [Agrees]
    · cases hm
      case setThinking hpt =>
        by_cases hil : j.right = i
        · exact .inr (.inr ⟨i, by grind [Pending]⟩)
        · grind
      all_goals grind [Agrees]
    · by_cases hki : k = i
      · subst hki
        -- the thread in the section goes on: past `j`, or it finds that a neighbour of `j` eats
        cases hm
        case pass hpt hp =>
          rw [hpt] at hk
          exact .inr (.inr ⟨k, by simpa using hk.pass hp⟩)
        case skip hpt hp =>
          rw [hpt] at hk
          have := hk.skip hp hji
          exact this.imp_right (Or.imp_right fun h => ⟨k, by simpa using h⟩)
        case setEating c hpt =>
          rw [hpt] at hk
          rcases hk.setEating with rfl | h
          · simp at hj
          · exact .inr (.inr ⟨k, by simpa using h⟩)
        case post hpt =>
          rw [hpt] at hk
          exact .inr (.inr ⟨k, by simpa using hk.post⟩)
        all_goals simp_all [Pending]
      · exact .inr (.inr ⟨k, by rwa [point_of_move hm hki]⟩)
  · cases hm
    case setHungry hpt =>
      have : j = i := by grind
      exact .inr (.inr ⟨i, by simp [Pending, this]⟩)
    all_goals grind

/-- Every move keeps the invariant, with some owner of `mutex`. -/
theorem inv_step (hN : 2 ≤ N) (h : Inv s o) (hm : Move s i s') : ∃ o', Inv s' o' := by
  obtain ⟨o', h'⟩ := held_step h.held hm
  exact ⟨o', {
    held := h'
    agrees := agrees_step hN h hm
    checked := fun _ _ _ hk => checked_step hN h hm hk
    sem_le := fun j => (sem_step hN h h' hm j).1
    sem := fun j => (sem_step hN h h' hm j).2
    neighbours := neighbours_step hN h hm
    served := served_step h hm }⟩

/-- The invariant holds in every run. -/
theorem inv_run (hN : 2 ≤ N) {τ : List (Id N)} (h : Run (StepBy step) (start N) τ s) :
    ∃ o, Inv s o := by
  refine h.invariant (fun _ s => ∃ o, Inv s o) ⟨none, inv_start⟩ ?_
  intro τ s e s' _ ⟨o, ho⟩ ⟨i, he⟩
  exact inv_step hN ho (move_of_step he)

/-! ## The table -/

/-- Nobody is stuck as long as somebody is in the section. -/
theorem Inv.step_of_held (h : Inv s (some k)) : (step s k).isSome := by
  have hk : (s.point k).InSection := (h.held.1 k).2 rfl
  cases hp : s.point k <;> simp_all [step, Point.InSection]

/-- With `mutex` free, a hungry philosopher has a neighbour that eats. -/
theorem Inv.served_of_free (h : Inv s none) (hi : s.state i = .HUNGRY) :
    s.state i.left = .EATING ∨ s.state i.right = .EATING := by
  rcases h.served i hi with hl | hr | ⟨k, hk⟩
  · exact .inl hl
  · exact .inr hr
  · -- only the thread in the section has somebody to look at
    have : (s.point k).InSection := by
      cases hp : s.point k <;> simp_all [Pending, Point.InSection]
    cases (h.held.1 k).1 this

/-- With the section empty, a thread that is stuck sleeps on its semaphore, and is hungry. -/
theorem Inv.hungry_of_blocked (h : Inv s none) (hi : step s i = none) : s.state i = .HUNGRY := by
  have hmutex : s.mutex = 1 := h.held.2
  have hsect : ∀ k, ¬ (s.point k).InSection := fun k hk => nomatch (h.held.1 k).1 hk
  have hp : s.point i = .waitSem ∧ s.sem i = 0 := by
    unfold step at hi
    split at hi <;> simp_all
  have hne : s.state i ≠ .THINKING := by
    have ha := h.agrees i
    rwa [hp.1] at ha
  have hno : ¬ ∃ k, Posting s k i := by
    rintro ⟨k, c, hc, -⟩
    exact hsect k (by rw [hc]; trivial)
  have hsem := h.sem i
  cases hs : s.state i with
  | THINKING => exact absurd hs hne
  | HUNGRY => rfl
  | EATING => simp [hp, hs, hno, Point.Waiting] at hsem

/-- Some philosopher can always go on. -/
theorem Inv.exists_step (hN : 2 ≤ N) (h : Inv s o) : ∃ i, (step s i).isSome := by
  cases o with
  | some k => exact ⟨k, h.step_of_held⟩
  | none =>
    by_contra hall
    have hnone : ∀ i, step s i = none := fun i => by
      simpa using not_exists.1 hall i
    -- everybody is hungry, and so nobody eats next to the first one
    let i : Id N := ⟨1, by omega⟩
    rcases h.served_of_free (h.hungry_of_blocked (hnone i)) with hl | hr
    · rw [h.hungry_of_blocked (hnone _)] at hl
      cases hl
    · rw [h.hungry_of_blocked (hnone _)] at hr
      cases hr

/-- What the forks are for, in a state of the table. -/
structure Orderly (s : State N) : Prop where
  neighbours : ∀ i, s.state i = .EATING → s.state i.left ≠ .EATING ∧ s.state i.right ≠ .EATING
  sem_le : ∀ i, s.sem i ≤ 1
  sem : ∀ i, s.sem i = 1 ↔ s.state i = .EATING ∧ (s.point i).Waiting ∧ ¬ ∃ k, Posting s k i
  eating : ∀ i, (s.point i).HasForks → s.state i = .EATING
  free : s.mutex = 1 ↔ ∀ k, ¬ (s.point k).InSection
  served : s.mutex = 1 → ∀ i, s.state i = .HUNGRY →
    s.state i.left = .EATING ∨ s.state i.right = .EATING
  unblocked : ∃ i, (step s i).isSome

/-- The invariant gives what is wanted of the table. -/
theorem Inv.orderly (hN : 2 ≤ N) (h : Inv s o) : Orderly s where
  neighbours i hi := by
    refine ⟨fun hl => ?_, h.neighbours i hi⟩
    have := h.neighbours i.left hl
    rw [Id.left_right] at this
    exact this hi
  sem_le := h.sem_le
  sem := h.sem
  eating i hi := by
    have ha := h.agrees i
    cases hp : s.point i <;> simp_all [Point.HasForks, Agrees]
  free := by
    obtain ⟨ho, hx⟩ := h.held
    cases o <;> simp_all
  served hx i hi := by
    cases o with
    | none => exact h.served_of_free hi
    | some k => simp [h.held.2] at hx
  unblocked := h.exists_step hN

/-- Whatever the order of the steps, in every state of every table of two or more: no two
neighbours eat, a semaphore is the one post that an eating philosopher has not consumed, who has
the forks eats, and nobody waits without a reason. -/
theorem forks_orderly (hN : 2 ≤ N) {τ : List (Id N)} (h : Run (StepBy step) (start N) τ s) :
    Orderly s := by
  obtain ⟨o, ho⟩ := inv_run hN h
  exact ho.orderly hN

/-- One of two philosophers. -/
def one : Id 2 := ⟨1, by omega⟩

/-- The first one passes his semaphore; the other one is hungry and finds him eating. -/
theorem forks_orderly_two :
    ∃ s : State 2, s.state one = .EATING ∧ s.state one.left = .HUNGRY ∧ Orderly s :=
  ⟨((perform step [] (start 2) (List.replicate 10 one ++ List.replicate 6 one.left)).get
      (by decide +kernel)).2, by decide +kernel, by decide +kernel,
    forks_orderly (by omega) (run_of_get _)⟩

/-- The first one is alone, and his next access is `sem_post` in his own `test`. -/
def beforePost : State 2 :=
  ((perform step [] (start 2) (List.replicate 7 one)).get (by decide +kernel)).2

/-- Between `state[i] = EATING` and `sem_post(&sem[i])` the semaphore is still 0. -/
theorem eating_before_post :
    ¬ ∀ N, 2 ≤ N → ∀ (τ : List (Id N)) (s : State N), Run (StepBy step) (start N) τ s →
      ∀ i, s.sem i = 1 ↔ s.state i = .EATING ∧ (s.point i).Waiting := by
  intro hall
  have hs := hall 2 (by omega) _ beforePost (run_of_get _) one
  have hsem : beforePost.sem one = 0 := by decide +kernel
  have hstate : beforePost.state one = .EATING := by decide +kernel
  have hpoint : beforePost.point one = .test .own .post := by decide +kernel
  rw [hsem, hstate, hpoint] at hs
  exact absurd (hs.2 ⟨rfl, trivial⟩) (by decide)

end EE516.Philosopher
