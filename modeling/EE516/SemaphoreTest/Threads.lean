import Mathlib.Algebra.Order.BigOperators.Group.Finset
import EE516.Foundations.Run

/-!
# The threads of `task3_semaphoretest.c`

Every thread adds 1 to the shared variable, `MAX_LOOP` times, with a load, an addition and a store.
An instruction of a thread is one step, and the machine interleaves the instructions of the threads
in any order; a thread that is not created yet is one that has not made a step. The machine here is
that of `threadfunctionWithoutSemaphore`, and the results that it can end with are known exactly.
-/

set_option autoImplicit false

namespace EE516.SemaphoreTest

open EE516.Foundations

universe u

/-! ## The threads -/

/-- The instruction that a thread makes next. -/
inductive Pc where
  /-- `i < MAX_LOOP` -/
  | test
  /-- `mysema_down(TARGET_SEMAPHORE)`, called or not -/
  | down
  /-- `int v = shared_variable` -/
  | load
  /-- `v++` -/
  | add
  /-- `shared_variable = v` -/
  | store
  /-- `mysema_up(TARGET_SEMAPHORE)`, called or not -/
  | up
  /-- `i++` -/
  | next
  | exit
  deriving DecidableEq, Repr

/-- Where a thread is, with its own variables. -/
structure Thread where
  pc : Pc
  i : Nat
  v : Int
  deriving DecidableEq, Repr

/-- A thread at the head of its loop. -/
def newThread : Thread := ⟨.test, 0, 0⟩

/-- The instructions of `addFunction`, which returns to `after`: the shared variable and the thread
after the one that is next. -/
def addFunction (after : Pc) (shared_variable : Int) (th : Thread) : Option (Int × Thread) :=
  match th.pc with
  | .load => some (shared_variable, { th with pc := .add, v := shared_variable })
  | .add => some (shared_variable, { th with pc := .store, v := th.v + 1 })
  | .store => some (th.v, { th with pc := after })
  | _ => none

/-- One instruction of a thread with the semaphore; its downs and ups are calls of the kernel. -/
def threadfunctionWithSemaphore (MAX_LOOP : Nat) (shared_variable : Int) (th : Thread) :
    Option (Int × Thread) :=
  match th.pc with
  | .test =>
    some (shared_variable, { th with pc := if th.i < MAX_LOOP then .down else .exit })
  | .next => some (shared_variable, { th with pc := .test, i := th.i + 1 })
  | _ => addFunction .up shared_variable th

/-- One instruction of a thread that adds without the semaphore. -/
def threadfunctionWithoutSemaphore (MAX_LOOP : Nat) (shared_variable : Int) (th : Thread) :
    Option (Int × Thread) :=
  match th.pc with
  | .test =>
    some (shared_variable, { th with pc := if th.i < MAX_LOOP then .load else .exit })
  | .next => some (shared_variable, { th with pc := .test, i := th.i + 1 })
  | _ => addFunction .next shared_variable th

/-- How often the thread has stored. -/
def Thread.stored (th : Thread) : Nat :=
  if th.pc = .up ∨ th.pc = .next then th.i + 1 else th.i

/-! ## The machine without the semaphore -/

/-- The shared variable and the threads. -/
structure State (Tid : Type u) where
  shared_variable : Int
  thread : Tid → Thread

/-- All threads are at the beginning. -/
def start (Tid : Type u) : State Tid := ⟨0, fun _ => newThread⟩

variable {Tid : Type u} [DecidableEq Tid] {MAX_LOOP : Nat}

/-- One thread takes its next step. -/
def step (MAX_LOOP : Nat) (s : State Tid) (t : Tid) : Option (Tid × State Tid) :=
  (threadfunctionWithoutSemaphore MAX_LOOP s.shared_variable (s.thread t)).map fun r =>
    (t, ⟨r.1, Function.update s.thread t r.2⟩)

/-- `pthread_join` of all threads returned. -/
def State.Joined (s : State Tid) : Prop :=
  ∀ t, (s.thread t).pc = .exit

variable {s s' : State Tid} {t u : Tid} {x : Int} {n w : Nat}

/-- What an instruction of a thread does, in a loop whose body begins with `entry` and where
`addFunction` returns to `after`. -/
inductive Does (MAX_LOOP : Nat) (entry after : Pc) (x : Int) (th : Thread) : Int → Thread → Prop
  | enter (hpc : th.pc = .test) (hi : th.i < MAX_LOOP) :
      Does MAX_LOOP entry after x th x { th with pc := entry }
  | leave (hpc : th.pc = .test) (hi : ¬ th.i < MAX_LOOP) :
      Does MAX_LOOP entry after x th x { th with pc := .exit }
  | load (hpc : th.pc = .load) : Does MAX_LOOP entry after x th x { th with pc := .add, v := x }
  | add (hpc : th.pc = .add) :
      Does MAX_LOOP entry after x th x { th with pc := .store, v := th.v + 1 }
  | store (hpc : th.pc = .store) : Does MAX_LOOP entry after x th th.v { th with pc := after }
  | next (hpc : th.pc = .next) :
      Does MAX_LOOP entry after x th x { th with pc := .test, i := th.i + 1 }

theorem does_of_addFunction {th th' : Thread} {x' : Int} {entry after : Pc}
    (h : addFunction after x th = some (x', th')) : Does MAX_LOOP entry after x th x' th' := by
  rw [addFunction] at h
  cases hpc : th.pc with
  | load =>
    simp only [hpc] at h
    cases h
    exact .load hpc
  | add =>
    simp only [hpc] at h
    cases h
    exact .add hpc
  | store =>
    simp only [hpc] at h
    cases h
    exact .store hpc
  | test | down | up | next | exit =>
    simp only [hpc] at h
    cases h

theorem does_with {th th' : Thread} {x' : Int}
    (h : threadfunctionWithSemaphore MAX_LOOP x th = some (x', th')) :
    Does MAX_LOOP .down .up x th x' th' := by
  cases hpc : th.pc with
  | test =>
    simp only [threadfunctionWithSemaphore, hpc] at h
    cases h
    split
    · exact .enter hpc ‹_›
    · exact .leave hpc ‹_›
  | next =>
    simp only [threadfunctionWithSemaphore, hpc] at h
    cases h
    exact .next hpc
  | down | load | add | store | up | exit =>
    simp only [threadfunctionWithSemaphore, hpc] at h
    exact does_of_addFunction h

theorem does_without {th th' : Thread} {x' : Int}
    (h : threadfunctionWithoutSemaphore MAX_LOOP x th = some (x', th')) :
    Does MAX_LOOP .load .next x th x' th' := by
  cases hpc : th.pc with
  | test =>
    simp only [threadfunctionWithoutSemaphore, hpc] at h
    cases h
    split
    · exact .enter hpc ‹_›
    · exact .leave hpc ‹_›
  | next =>
    simp only [threadfunctionWithoutSemaphore, hpc] at h
    cases h
    exact .next hpc
  | down | load | add | store | up | exit =>
    simp only [threadfunctionWithoutSemaphore, hpc] at h
    exact does_of_addFunction h

theorem does_of_step {e : Tid} (h : StepBy (step MAX_LOOP) s e s') :
    ∃ th, Does MAX_LOOP .load .next s.shared_variable (s.thread e) s'.shared_variable th ∧
      s'.thread = Function.update s.thread e th := by
  obtain ⟨t, ht⟩ := h
  obtain ⟨⟨x, th⟩, hinstr, heq⟩ := Option.map_eq_some_iff.1 ht
  cases heq
  exact ⟨th, does_without hinstr, rfl⟩

/-! ## Bounds of the results -/

/-- What holds of a thread, with the number of stores so far. -/
def Sound (MAX_LOOP stores : Nat) (th : Thread) : Prop :=
  match th.pc with
  | .test => th.i ≤ MAX_LOOP
  | .load | .next => th.i < MAX_LOOP
  -- from the second round on, the thread has seen its own first store
  | .add => th.i < MAX_LOOP ∧ 0 ≤ th.v ∧ th.v ≤ stores ∧ (1 ≤ th.i → 1 ≤ th.v)
  | .store => th.i < MAX_LOOP ∧ 1 ≤ th.v ∧ th.v ≤ stores + 1 ∧ (1 ≤ th.i → 2 ≤ th.v)
  | .exit => th.i = MAX_LOOP
  | .down | .up => False

variable [Fintype Tid]

/-- The number of stores that were made. -/
def State.stores (s : State Tid) : Nat :=
  ∑ t, (s.thread t).stored

/-- The invariant of the machine. A thread whose last store was lost has rounds to go. -/
structure Inv (MAX_LOOP : Nat) (s : State Tid) : Prop where
  sound : ∀ t, Sound MAX_LOOP s.stores (s.thread t)
  nonneg : 0 ≤ s.shared_variable
  le : s.shared_variable ≤ s.stores
  pos : ∀ t, 1 ≤ (s.thread t).stored → 1 ≤ s.shared_variable
  two : 2 ≤ s.shared_variable ∨ ∃ t, (s.thread t).stored ≤ 1

/-- The stores of all change by those of the thread that moves. -/
theorem stores_update {th : Thread} (hthread : s'.thread = Function.update s.thread t th) :
    s'.stores + (s.thread t).stored = s.stores + th.stored := by
  rw [State.stores, State.stores, hthread, ← Finset.add_sum_erase _ _ (Finset.mem_univ t),
    ← Finset.add_sum_erase (Finset.univ) (fun u => (s.thread u).stored) (Finset.mem_univ t)]
  have hrest : ∑ u ∈ Finset.univ.erase t, (Function.update s.thread t th u).stored =
      ∑ u ∈ Finset.univ.erase t, (s.thread u).stored := by
    refine Finset.sum_congr rfl fun u hu => ?_
    rw [Function.update_of_ne (Finset.ne_of_mem_erase hu)]
  rw [hrest, Function.update_self]
  omega

theorem Sound.mono {th : Thread} {k l : Nat} (h : Sound MAX_LOOP k th) (hkl : k ≤ l) :
    Sound MAX_LOOP l th := by
  have hcast : (k : Int) ≤ l := Int.ofNat_le.2 hkl
  cases hpc : th.pc with
  | add | store =>
    simp only [Sound, hpc] at h ⊢
    obtain ⟨hi, h₀, hle, h₁⟩ := h
    exact ⟨hi, h₀, by omega, h₁⟩
  | down | up => simp only [Sound, hpc] at h
  | test | load | next | exit => simpa only [Sound, hpc] using h

omit [DecidableEq Tid] in
theorem inv_start [Nonempty Tid] : Inv MAX_LOOP (start Tid) where
  sound t := Nat.zero_le _
  nonneg := le_refl _
  le := Int.natCast_nonneg _
  pos t ht := absurd ht (by simp [start, newThread, Thread.stored])
  two := .inr ⟨Classical.arbitrary Tid, Nat.zero_le _⟩

/-- A step without a store. -/
theorem Inv.keep {th : Thread} (h : Inv MAX_LOOP s)
    (hshared : s'.shared_variable = s.shared_variable)
    (hthread : s'.thread = Function.update s.thread t th)
    (hstored : th.stored = (s.thread t).stored) (hsound : Sound MAX_LOOP s.stores th) :
    Inv MAX_LOOP s' := by
  have hstores : s'.stores = s.stores := by
    have := stores_update hthread
    omega
  have hall : ∀ u, (s'.thread u).stored = (s.thread u).stored := by
    intro u
    rw [hthread]
    by_cases hu : u = t
    · rw [hu, Function.update_self, hstored]
    · rw [Function.update_of_ne hu]
  refine ⟨fun u => ?_, ?_, ?_, fun u hu => ?_, ?_⟩
  · rw [hstores, hthread]
    by_cases hu : u = t
    · rw [hu, Function.update_self]
      exact hsound
    · rw [Function.update_of_ne hu]
      exact h.sound u
  · rw [hshared]
    exact h.nonneg
  · rw [hshared, hstores]
    exact h.le
  · rw [hall] at hu
    rw [hshared]
    exact h.pos u hu
  · rw [hshared]
    simp only [hall]
    exact h.two

/-- Every step keeps the invariant. -/
theorem Inv.step (h : Inv MAX_LOOP s) {e : Tid} (hstep : StepBy (step MAX_LOOP) s e s') :
    Inv MAX_LOOP s' := by
  obtain ⟨th, hdoes, hthread⟩ := does_of_step hstep
  have hsound := h.sound e
  have hpos := h.pos e
  generalize hx : s'.shared_variable = x at hdoes
  cases hdoes with
  | enter hpc hi =>
    refine h.keep hx hthread ?_ ?_
    · simp [Thread.stored, hpc]
    · exact hi
  | leave hpc hi =>
    simp only [Sound, hpc] at hsound
    refine h.keep hx hthread ?_ ?_
    · simp [Thread.stored, hpc]
    · simp only [Sound]
      omega
  | load hpc =>
    simp only [Sound, hpc] at hsound
    refine h.keep hx hthread ?_ ?_
    · simp [Thread.stored, hpc]
    · refine ⟨hsound, h.nonneg, h.le, fun hi => hpos ?_⟩
      simpa [Thread.stored, hpc] using hi
  | add hpc =>
    simp only [Sound, hpc] at hsound
    obtain ⟨hi, h₀, hle, h₁⟩ := hsound
    refine h.keep hx hthread ?_ ⟨hi, ?_, ?_, fun hone => ?_⟩
    · simp [Thread.stored, hpc]
    · dsimp only
      omega
    · dsimp only
      omega
    · -- from the second round on the loaded value is 1 or more
      have := h₁ hone
      dsimp only
      omega
  | store hpc =>
    simp only [Sound, hpc] at hsound
    obtain ⟨hi, h₀, hle, h₁⟩ := hsound
    -- the thread has stored once more, and so have all together
    have hold : (s.thread e).stored = (s.thread e).i := by simp [Thread.stored, hpc]
    have hself : (s'.thread e).stored = (s.thread e).i + 1 := by
      rw [hthread, Function.update_self]
      exact if_pos (.inr rfl)
    have hstores : s'.stores = s.stores + 1 := by
      have hsum := stores_update hthread
      rw [hthread, Function.update_self] at hself
      rw [hold, hself] at hsum
      omega
    refine ⟨fun u => ?_, ?_, ?_, fun u hu => ?_, ?_⟩
    · rw [hstores, hthread]
      by_cases hu : u = e
      · rw [hu, Function.update_self]
        exact hi
      · rw [Function.update_of_ne hu]
        exact (h.sound u).mono (Nat.le_succ _)
    · omega
    · omega
    · omega
    · -- a first store may be the last one of the thread so far, a later one stores 2 or more
      by_cases hone : 1 ≤ (s.thread e).i
      · exact .inl (by rw [hx]; exact h₁ hone)
      · exact .inr ⟨e, by omega⟩
  | next hpc =>
    simp only [Sound, hpc] at hsound
    refine h.keep hx hthread ?_ ?_
    · simp [Thread.stored, hpc]
    · exact Nat.succ_le_of_lt hsound

/-! ## Runs with lost additions -/

section Runs

omit [Fintype Tid]

/-- Some order of steps leads from one state to the other. -/
def Leads (MAX_LOOP : Nat) (s s' : State Tid) : Prop :=
  ∃ τ, Run (StepBy (step MAX_LOOP)) s τ s'

theorem Leads.refl (s : State Tid) : Leads MAX_LOOP s s :=
  ⟨[], .start⟩

theorem Leads.trans {s₁ s₂ s₃ : State Tid} (h₁ : Leads MAX_LOOP s₁ s₂) (h₂ : Leads MAX_LOOP s₂ s₃) :
    Leads MAX_LOOP s₁ s₃ := by
  obtain ⟨τ₁, h₁⟩ := h₁
  obtain ⟨τ₂, h₂⟩ := h₂
  exact ⟨τ₂ ++ τ₁, h₁.append h₂⟩

/-- One instruction leads on. -/
theorem leads_of_instruction {th : Thread}
    (h : threadfunctionWithoutSemaphore MAX_LOOP s.shared_variable (s.thread t) = some (x, th)) :
    Leads MAX_LOOP s ⟨x, Function.update s.thread t th⟩ :=
  ⟨[t], .step .start ⟨t, by rw [step, h]; rfl⟩⟩

/-- One more instruction of a thread. -/
theorem leads_of_next {y : Int} {th th' : Thread} (f : Tid → Thread)
    (h : threadfunctionWithoutSemaphore MAX_LOOP x th = some (y, th')) :
    Leads MAX_LOOP ⟨x, Function.update f t th⟩ ⟨y, Function.update f t th'⟩ := by
  have hnext : Leads MAX_LOOP ⟨x, Function.update f t th⟩
      ⟨y, Function.update (Function.update f t th) t th'⟩ :=
    leads_of_instruction (by
      dsimp only
      rw [Function.update_self, h])
  rwa [Function.update_idem] at hnext

/-- A round of one thread; what the others store between its load and its store is lost. -/
theorem lost_round (MAX_LOOP : Nat) {s₂ : State Tid} {i : Nat} {v : Int}
    (hthread : s.thread t = ⟨.test, i, v⟩) (hi : i < MAX_LOOP)
    (hmid : Leads MAX_LOOP ⟨s.shared_variable,
      Function.update s.thread t ⟨.add, i, s.shared_variable⟩⟩ s₂)
    (hkeep : s₂.thread t = ⟨.add, i, s.shared_variable⟩) :
    Leads MAX_LOOP s ⟨s.shared_variable + 1,
      Function.update s₂.thread t ⟨.test, i + 1, s.shared_variable + 1⟩⟩ := by
  have htest : Leads MAX_LOOP s ⟨s.shared_variable, Function.update s.thread t ⟨.load, i, v⟩⟩ :=
    leads_of_instruction (by simp [threadfunctionWithoutSemaphore, hthread, hi])
  have hload : Leads MAX_LOOP ⟨s.shared_variable, Function.update s.thread t ⟨.load, i, v⟩⟩
      ⟨s.shared_variable, Function.update s.thread t ⟨.add, i, s.shared_variable⟩⟩ :=
    leads_of_next s.thread rfl
  have hadd : Leads MAX_LOOP s₂ ⟨s₂.shared_variable,
      Function.update s₂.thread t ⟨.store, i, s.shared_variable + 1⟩⟩ :=
    leads_of_instruction (by simp [threadfunctionWithoutSemaphore, addFunction, hkeep])
  have hstore : Leads MAX_LOOP
      ⟨s₂.shared_variable, Function.update s₂.thread t ⟨.store, i, s.shared_variable + 1⟩⟩
      ⟨s.shared_variable + 1,
        Function.update s₂.thread t ⟨.next, i, s.shared_variable + 1⟩⟩ :=
    leads_of_next s₂.thread rfl
  have hnext : Leads MAX_LOOP
      ⟨s.shared_variable + 1, Function.update s₂.thread t ⟨.next, i, s.shared_variable + 1⟩⟩
      ⟨s.shared_variable + 1,
        Function.update s₂.thread t ⟨.test, i + 1, s.shared_variable + 1⟩⟩ :=
    leads_of_next s₂.thread rfl
  exact htest.trans (hload.trans (hmid.trans (hadd.trans (hstore.trans hnext))))

/-- Some rounds of one thread with nothing in between. -/
theorem rounds (MAX_LOOP : Nat) {i k : Nat} {v : Int} (hthread : s.thread t = ⟨.test, i, v⟩)
    (hk : i + k ≤ MAX_LOOP) :
    ∃ v', Leads MAX_LOOP s
      ⟨s.shared_variable + k, Function.update s.thread t ⟨.test, i + k, v'⟩⟩ := by
  induction k with
  | zero =>
    refine ⟨v, ?_⟩
    have hsame : Function.update s.thread t ⟨.test, i, v⟩ = s.thread := by
      rw [← hthread, Function.update_eq_self]
    rw [Nat.add_zero, hsame]
    simpa using Leads.refl s
  | succ k ih =>
    obtain ⟨v', hleads⟩ := ih (by omega)
    have hround := lost_round MAX_LOOP (t := t)
      (s := ⟨s.shared_variable + k, Function.update s.thread t ⟨.test, i + k, v'⟩⟩)
      (Function.update_self _ _ _) (by omega) (Leads.refl _) (Function.update_self _ _ _)
    refine ⟨s.shared_variable + k + 1, hleads.trans ?_⟩
    simpa [add_assoc] using hround

/-- The thread is at the head of its loop. -/
def Idle (MAX_LOOP : Nat) (th : Thread) : Prop :=
  th.pc = .test ∧ th.i ≤ MAX_LOOP

/-- How many rounds some threads have to go. -/
def State.rest (MAX_LOOP : Nat) (s : State Tid) (S : Finset Tid) : Nat :=
  ∑ t ∈ S, (MAX_LOOP - (s.thread t).i)

omit [DecidableEq Tid] in
theorem rest_congr {S : Finset Tid} (h : ∀ t ∈ S, s'.thread t = s.thread t) :
    s'.rest MAX_LOOP S = s.rest MAX_LOOP S :=
  Finset.sum_congr rfl fun t ht => by rw [h t ht]

/-- Some threads make some of their rounds, and the others none. -/
theorem spend (MAX_LOOP : Nat) {S : Finset Tid} (hidle : ∀ t ∈ S, Idle MAX_LOOP (s.thread t))
    (hw : w ≤ s.rest MAX_LOOP S) :
    ∃ s', Leads MAX_LOOP s s' ∧ s'.shared_variable = s.shared_variable + w ∧
      (∀ t ∈ S, Idle MAX_LOOP (s'.thread t)) ∧
      s'.rest MAX_LOOP S + w = s.rest MAX_LOOP S ∧ ∀ t ∉ S, s'.thread t = s.thread t := by
  induction S using Finset.induction_on generalizing s w with
  | empty =>
    obtain rfl : w = 0 := Nat.le_zero.1 hw
    exact ⟨s, .refl s, by simp, hidle, rfl, fun _ _ => rfl⟩
  | @insert a S ha ih =>
    obtain ⟨hpc, hi⟩ := hidle a (Finset.mem_insert_self a S)
    rw [State.rest, Finset.sum_insert ha] at hw
    -- the first thread makes as many of the rounds as it can
    obtain ⟨k, hk⟩ : ∃ k, min w (MAX_LOOP - (s.thread a).i) = k := ⟨_, rfl⟩
    obtain ⟨v, hrounds⟩ := rounds MAX_LOOP (s := s) (t := a) (k := k)
      (i := (s.thread a).i) (v := (s.thread a).v) (by rw [← hpc]) (by omega)
    obtain ⟨s₁, hs₁⟩ : ∃ s₁ : State Tid, s₁ = ⟨s.shared_variable + k,
        Function.update s.thread a ⟨.test, (s.thread a).i + k, v⟩⟩ := ⟨_, rfl⟩
    have hother : ∀ t ∈ S, s₁.thread t = s.thread t := fun t ht => by
      rw [hs₁]
      exact Function.update_of_ne (ne_of_mem_of_not_mem ht ha) _ _
    have hself : s₁.thread a = ⟨.test, (s.thread a).i + k, v⟩ := by
      rw [hs₁]
      exact Function.update_self _ _ _
    have hrest : s₁.rest MAX_LOOP S = s.rest MAX_LOOP S := rest_congr hother
    obtain ⟨s₂, hleads, hshared, hidle₂, hrest₂, hsame⟩ := ih (s := s₁) (w := w - k)
      (fun t ht => hother t ht ▸ hidle t (Finset.mem_insert_of_mem ht)) (by
        rw [hrest, State.rest]
        omega)
    have ha₂ := (hsame a ha).trans hself
    refine ⟨s₂, (hs₁ ▸ hrounds).trans hleads, ?_, fun t ht => ?_, ?_, fun t ht => ?_⟩
    · have hs₁' : s₁.shared_variable = s.shared_variable + k := by rw [hs₁]
      omega
    · rcases Finset.mem_insert.1 ht with rfl | ht
      · rw [ha₂]
        exact ⟨rfl, by dsimp only; omega⟩
      · exact hidle₂ t ht
    · rw [State.rest, State.rest, Finset.sum_insert ha, Finset.sum_insert ha, ha₂]
      rw [hrest] at hrest₂
      simp only [State.rest] at hrest₂
      dsimp only
      omega
    · rw [Finset.mem_insert, not_or] at ht
      rw [hsame t ht.2, hs₁]
      exact Function.update_of_ne ht.1 _ _

/-- Threads without a round to go exit. -/
theorem exits (MAX_LOOP : Nat) {S : Finset Tid}
    (hdone : ∀ t ∈ S, (s.thread t).pc = .test ∧ (s.thread t).i = MAX_LOOP) :
    ∃ s', Leads MAX_LOOP s s' ∧ s'.shared_variable = s.shared_variable ∧
      (∀ t ∈ S, (s'.thread t).pc = .exit) ∧ ∀ t ∉ S, s'.thread t = s.thread t := by
  induction S using Finset.induction_on generalizing s with
  | empty => exact ⟨s, .refl s, rfl, fun t ht => absurd ht (Finset.notMem_empty t), fun _ _ => rfl⟩
  | @insert a S ha ih =>
    obtain ⟨hpc, hi⟩ := hdone a (Finset.mem_insert_self a S)
    have hexit : Leads MAX_LOOP s
        ⟨s.shared_variable, Function.update s.thread a { s.thread a with pc := .exit }⟩ :=
      leads_of_instruction (by simp [threadfunctionWithoutSemaphore, hpc, hi])
    obtain ⟨s₂, hleads, hshared, hexit₂, hsame⟩ := ih
      (s := ⟨s.shared_variable, Function.update s.thread a { s.thread a with pc := .exit }⟩)
      (fun t ht => by
        dsimp only
        rw [Function.update_of_ne (ne_of_mem_of_not_mem ht ha)]
        exact hdone t (Finset.mem_insert_of_mem ht))
    refine ⟨s₂, hexit.trans hleads, hshared, fun t ht => ?_, fun t ht => ?_⟩
    · rcases Finset.mem_insert.1 ht with rfl | ht
      · rw [hsame t ha]
        simp
      · exact hexit₂ t ht
    · rw [Finset.mem_insert, not_or] at ht
      rw [hsame t ht.2]
      exact Function.update_of_ne ht.1 _ _

end Runs

/-- All threads make the rounds that they have to go, one after another. -/
theorem finish (hidle : ∀ t, Idle MAX_LOOP (s.thread t)) :
    ∃ s', Leads MAX_LOOP s s' ∧ s'.Joined ∧
      s'.shared_variable = s.shared_variable + s.rest MAX_LOOP Finset.univ := by
  obtain ⟨s₁, hspend, hshared₁, hidle₁, hrest, -⟩ :=
    spend MAX_LOOP (s := s) (S := Finset.univ) (fun t _ => hidle t) (le_refl _)
  have hzero : s₁.rest MAX_LOOP Finset.univ = 0 := by omega
  obtain ⟨s₂, hexits, hshared₂, hexit, -⟩ := exits MAX_LOOP (s := s₁)
    (S := Finset.univ) fun t ht => by
      have hi := (Finset.sum_eq_zero_iff.1 hzero) t ht
      exact ⟨(hidle₁ t ht).1, by have := (hidle₁ t ht).2; omega⟩
  exact ⟨s₂, hspend.trans hexits, fun t => hexit t (Finset.mem_univ t), hshared₂.trans hshared₁⟩

theorem rest_eq (MAX_LOOP : Nat) (s : State Tid) (t : Tid) :
    s.rest MAX_LOOP Finset.univ =
      MAX_LOOP - (s.thread t).i + s.rest MAX_LOOP (Finset.univ.erase t) := by
  rw [State.rest, ← Finset.add_sum_erase _ _ (Finset.mem_univ t)]
  rfl

/-- A round of one thread in which the others make some of their rounds in vain. -/
theorem lose (MAX_LOOP : Nat) (hidle : ∀ t, Idle MAX_LOOP (s.thread t))
    (hi : (s.thread t).i < MAX_LOOP) (hw : w ≤ s.rest MAX_LOOP (Finset.univ.erase t)) :
    ∃ s', Leads MAX_LOOP s s' ∧ (∀ t, Idle MAX_LOOP (s'.thread t)) ∧
      s'.shared_variable = s.shared_variable + 1 ∧ (s'.thread t).i = (s.thread t).i + 1 ∧
      s'.rest MAX_LOOP (Finset.univ.erase t) + w = s.rest MAX_LOOP (Finset.univ.erase t) := by
  obtain ⟨hpc, -⟩ := hidle t
  obtain ⟨s₁, hs₁⟩ : ∃ s₁ : State Tid, s₁ = ⟨s.shared_variable,
      Function.update s.thread t ⟨.add, (s.thread t).i, s.shared_variable⟩⟩ := ⟨_, rfl⟩
  have hother₁ : ∀ u ∈ Finset.univ.erase t, s₁.thread u = s.thread u := fun u hu => by
    rw [hs₁]
    exact Function.update_of_ne (Finset.ne_of_mem_erase hu) _ _
  obtain ⟨s₂, hspend, -, hidle₂, hrest₂, hsame₂⟩ :=
    spend MAX_LOOP (s := s₁) (w := w) (S := Finset.univ.erase t)
      (fun u hu => hother₁ u hu ▸ hidle u) (by rw [rest_congr hother₁]; exact hw)
  have hkeep : s₂.thread t = ⟨.add, (s.thread t).i, s.shared_variable⟩ := by
    rw [hsame₂ t (Finset.notMem_erase t _), hs₁]
    exact Function.update_self _ _ _
  have hlost := lost_round MAX_LOOP (v := (s.thread t).v) (by rw [← hpc]) hi (hs₁ ▸ hspend) hkeep
  refine ⟨_, hlost, fun u => ?_, rfl, ?_, ?_⟩
  · dsimp only
    by_cases hu : u = t
    · rw [hu, Function.update_self]
      exact ⟨rfl, hi⟩
    · rw [Function.update_of_ne hu]
      exact hidle₂ u (Finset.mem_erase.2 ⟨hu, Finset.mem_univ u⟩)
  · dsimp only
    rw [Function.update_self]
  · rw [← rest_congr hother₁, ← hrest₂]
    refine congrArg (· + w) (rest_congr fun u hu => ?_)
    exact Function.update_of_ne (Finset.ne_of_mem_erase hu) _ _

/-! ## The results -/

omit [DecidableEq Tid] in
/-- After all threads have exited, every round has stored once. -/
theorem stores_of_joined (h : Inv MAX_LOOP s) (hjoined : s.Joined) :
    s.stores = Fintype.card Tid * MAX_LOOP := by
  have hall : ∀ t ∈ Finset.univ, (s.thread t).stored = MAX_LOOP := by
    intro t _
    have hsound := h.sound t
    simp only [Sound, hjoined t] at hsound
    simp [Thread.stored, hjoined t, hsound]
  exact Finset.sum_const_nat hall

omit [DecidableEq Tid] [Fintype Tid] in
theorem idle_start (t : Tid) : Idle MAX_LOOP ((start Tid).thread t) :=
  ⟨rfl, Nat.zero_le _⟩

omit [DecidableEq Tid] [Fintype Tid] in
theorem rest_start (MAX_LOOP : Nat) (S : Finset Tid) :
    (start Tid).rest MAX_LOOP S = S.card * MAX_LOOP :=
  Finset.sum_const_nat fun _ _ => rfl

/-- Without the semaphore, two or more threads with two or more rounds each can end with every
result from 2 up to the number of all additions, and with no other one. -/
theorem results_without_semaphore {r : Int} (hcard : 2 ≤ Fintype.card Tid) (hloop : 2 ≤ MAX_LOOP) :
    (∃ τ s, Run (StepBy (step MAX_LOOP)) (start Tid) τ s ∧ s.Joined ∧ s.shared_variable = r) ↔
      2 ≤ r ∧ r ≤ Fintype.card Tid * MAX_LOOP := by
  obtain ⟨t₀⟩ : Nonempty Tid := Fintype.card_pos_iff.1 (by omega)
  have herase : (Finset.univ.erase t₀).card + 1 = Fintype.card Tid :=
    Finset.card_erase_add_one (Finset.mem_univ t₀)
  constructor
  · rintro ⟨τ, s, hrun, hjoined, rfl⟩
    have : Nonempty Tid := ⟨t₀⟩
    -- the bounds: the last store is 2 or more, and no store adds more than one
    have hinv : Inv MAX_LOOP s :=
      hrun.invariant (fun _ s => Inv MAX_LOOP s) inv_start fun _ h hstep => h.step hstep
    have hstores := stores_of_joined hinv hjoined
    refine ⟨?_, ?_⟩
    · rcases hinv.two with htwo | ⟨t, ht⟩
      · exact htwo
      · have hsound := hinv.sound t
        simp only [Sound, hjoined t] at hsound
        simp only [Thread.stored, hjoined t] at ht
        simp at ht
        omega
    · have hle := hinv.le
      rw [hstores] at hle
      exact_mod_cast hle
  · rintro ⟨htwo, hle⟩
    obtain ⟨n, rfl⟩ := Int.eq_ofNat_of_zero_le (by omega : 0 ≤ r)
    have hle' : n ≤ Fintype.card Tid * MAX_LOOP := by exact_mod_cast hle
    have hsplit : Fintype.card Tid * MAX_LOOP =
        (Finset.univ.erase t₀).card * MAX_LOOP + MAX_LOOP := by
      rw [← herase, Nat.succ_mul]
    have hrest₀ := rest_start MAX_LOOP (Finset.univ.erase t₀)
    have hmany : MAX_LOOP ≤ (Finset.univ.erase t₀).card * MAX_LOOP :=
      Nat.le_mul_of_pos_left MAX_LOOP (by omega)
    suffices hleads : ∃ s, Leads MAX_LOOP (start Tid) s ∧ s.Joined ∧ s.shared_variable = n by
      obtain ⟨s, ⟨τ, hrun⟩, hjoined, hshared⟩ := hleads
      exact ⟨τ, s, hrun, hjoined, hshared⟩
    by_cases hlarge : MAX_LOOP ≤ n
    · -- the first thread loses as many rounds of the others as it takes
      obtain ⟨s₁, hlose, hidle₁, hshared₁, hi₁, hrest₁⟩ := lose MAX_LOOP (t := t₀)
        (w := Fintype.card Tid * MAX_LOOP - n) idle_start (by simp [start, newThread]; omega)
        (by omega)
      obtain ⟨s₂, hfinish, hjoined, hshared₂⟩ := finish hidle₁
      refine ⟨s₂, hlose.trans hfinish, hjoined, ?_⟩
      rw [hshared₂, hshared₁, rest_eq MAX_LOOP s₁ t₀, hi₁]
      simp only [start, newThread]
      omega
    · -- it loses all rounds of the others but one, and the last one loses most rounds of it
      obtain ⟨s₁, hlose₁, hidle₁, hshared₁, hi₁, hrest₁⟩ := lose MAX_LOOP (t := t₀)
        (w := (Finset.univ.erase t₀).card * MAX_LOOP - 1) idle_start
        (by simp [start, newThread]; omega) (by omega)
      have hone : s₁.rest MAX_LOOP (Finset.univ.erase t₀) = 1 := by omega
      have hfirst : (s₁.thread t₀).i = 1 := hi₁
      obtain ⟨t₁, ht₁, hne⟩ := Finset.exists_ne_zero_of_sum_ne_zero
        (show s₁.rest MAX_LOOP (Finset.univ.erase t₀) ≠ 0 by omega)
      have hsingle : MAX_LOOP - (s₁.thread t₁).i ≤ 1 := by
        rw [← hone]
        exact Finset.single_le_sum (f := fun t => MAX_LOOP - (s₁.thread t).i)
          (fun _ _ => Nat.zero_le _) ht₁
      have hrest₁₀ := rest_eq MAX_LOOP s₁ t₀
      have hrest₁₁ := rest_eq MAX_LOOP s₁ t₁
      obtain ⟨s₂, hlose₂, hidle₂, hshared₂, hi₂, hrest₂⟩ := lose MAX_LOOP (t := t₁)
        (w := MAX_LOOP + 1 - n) hidle₁ (by omega) (by omega)
      obtain ⟨s₃, hfinish, hjoined, hshared₃⟩ := finish hidle₂
      refine ⟨s₃, hlose₁.trans (hlose₂.trans hfinish), hjoined, ?_⟩
      rw [hshared₃, hshared₂, hshared₁, rest_eq MAX_LOOP s₂ t₁]
      simp only [start]
      omega

/-- Eight million additions can leave 2. -/
theorem results_without_semaphore_two :
    ∃ τ s, Run (StepBy (step 1000000)) (start (Fin 8)) τ s ∧ s.Joined ∧ s.shared_variable = 2 :=
  (results_without_semaphore (by decide) (by decide)).2 (by decide)

end EE516.SemaphoreTest
