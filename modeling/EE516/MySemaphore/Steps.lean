import EE516.MySemaphore.Syscalls

/-!
# What a step can do

`Effect` lists the steps of the machine, each with its guard and the state it leads to
(`effect_of_step`). The first invariant holds from boot on, through any calls: a thread in a wait
list is there once, it is in the loop of a down on that semaphore, and its waiter is not up
(`Reachable.wellFormed`).
-/

set_option autoImplicit false

namespace EE516.MySemaphore

open EE516.Foundations

universe u

variable {Tid : Type u}

/-- The order of `sys_mysema_up` only permutes the wait list. -/
theorem wakeOrder_perm {mode : Int} {prio : Tid → Int} {waiter : Tid → MysemaphoreWaiter}
    {l l' : List Tid} (h : wakeOrder mode prio waiter l = some l') : l'.Perm l := by
  unfold wakeOrder at h
  split at h
  · cases h
    exact List.mergeSort_perm _ _
  · split at h
    · cases h
      exact List.mergeSort_perm _ _
    · split at h
      · cases h
        exact .refl _
      · cases h

/-- In a valid mode an up has an order for the waiters. -/
theorem wakeOrder_ne_none {mode : Int} {prio : Tid → Int} {waiter : Tid → MysemaphoreWaiter}
    {l : List Tid} (h : mode = FIFO ∨ mode = OS ∨ mode = USER) :
    wakeOrder mode prio waiter l ≠ none := by
  rcases h with rfl | rfl | rfl <;> intro h <;> cases h

/-! ## The wait lists -/

/-- The thread is in the loop of a down on the semaphore. -/
def InLoop (s : State Tid) (t : Tid) (i : SemaId) : Prop :=
  s.pos t = .sleeping i ∨ s.pos t = .relocking i

/-- A thread in a wait list is there once, in the loop of a down on that semaphore, and its waiter
is not up. -/
def WellFormed (s : State Tid) : Prop :=
  ∀ i l, (s.sem_set i).wait_list = some l →
    l.Nodup ∧ ∀ t ∈ l, InLoop s t i ∧ (s.waiter t).up = false

/-- A thread is in the loop of one semaphore only. -/
theorem InLoop.of_eq {s : State Tid} {t : Tid} {i j : SemaId} (hi : InLoop s t i)
    (hj : InLoop s t j) : i = j := by
  rcases hi with hi | hi <;> rcases hj with hj | hj <;> simp_all

/-- What a step about another semaphore leaves alone. -/
structure Untouched (i : SemaId) (s s' : State Tid) : Prop where
  sem : s'.sem_set i = s.sem_set i
  loop : ∀ t, InLoop s' t i ↔ InLoop s t i
  waiter : ∀ t, InLoop s t i → s'.waiter t = s.waiter t
  checked : ∀ t k, k.id = i → (s'.pos t = .checked k ↔ s.pos t = .checked k)
  running : ∀ t, InLoop s t i → s.task t = .TASK_RUNNING → s'.task t = .TASK_RUNNING

theorem inLoop_iff_of_pos {s s' : State Tid} {t : Tid} (h : s'.pos t = s.pos t) (i : SemaId) :
    InLoop s' t i ↔ InLoop s t i := by
  rw [InLoop, InLoop, h]

theorem not_inLoop_of_id {s : State Tid} {t : Tid} {i : SemaId} (h : (s.pos t).id ≠ some i) :
    ¬ InLoop s t i := by
  rintro (hp | hp) <;> rw [hp] at h <;> exact h rfl

/-- A step that moves one thread, away from the semaphore before and after it. -/
theorem untouched_of_move {s s' : State Tid} {i : SemaId} (t : Tid)
    (hsem : s'.sem_set i = s.sem_set i) (hpos : (s.pos t).id ≠ some i)
    (hpos' : (s'.pos t).id ≠ some i) (hother : ∀ u, u ≠ t → s'.pos u = s.pos u)
    (hwaiter : ∀ u, InLoop s u i → s'.waiter u = s.waiter u)
    (htask : ∀ u, InLoop s u i → s.task u = .TASK_RUNNING → s'.task u = .TASK_RUNNING) :
    Untouched i s s' := by
  refine ⟨hsem, fun u => ?_, hwaiter, fun u k hk => ?_, htask⟩
  · by_cases hut : u = t
    · subst hut
      exact iff_of_false (not_inLoop_of_id hpos') (not_inLoop_of_id hpos)
    · exact inLoop_iff_of_pos (hother u hut) i
  · by_cases hut : u = t
    · subst hut
      refine iff_of_false (fun h => hpos' ?_) fun h => hpos ?_
      · rw [h, Position.id, hk]
      · rw [h, Position.id, hk]
    · rw [hother u hut]

section WellFormed

variable {s : State Tid}

/-- A thread outside the loop is in no wait list. -/
theorem WellFormed.not_mem (hw : WellFormed s) {t : Tid} (ht : ∀ i, ¬ InLoop s t i) {i : SemaId}
    {l : List Tid} (hl : (s.sem_set i).wait_list = some l) : t ∉ l :=
  fun hm => ht i ((hw i l hl).2 t hm).1

theorem not_inLoop_of_idle {t : Tid} (h : s.pos t = .idle) (i : SemaId) : ¬ InLoop s t i := by
  simp [InLoop, h]

theorem not_inLoop_of_checked {t : Tid} {k : Commit} (h : s.pos t = .checked k) (i : SemaId) :
    ¬ InLoop s t i := by
  simp [InLoop, h]

/-- A new wait list is well formed if its threads are in the loop and not set up yet. -/
theorem WellFormed.setSem (hw : WellFormed s) {i : SemaId} {m : Mysemaphore Tid}
    (h : ∀ l, m.wait_list = some l → l.Nodup ∧ ∀ t ∈ l, InLoop s t i ∧ (s.waiter t).up = false) :
    WellFormed (s.setSem i m) := by
  intro j l hl
  by_cases hji : j = i
  · subst hji
    exact h l (by simpa using hl)
  · exact hw j l (by simpa [hji] using hl)

variable [DecidableEq Tid]

/-- A thread that waits in a list may move only inside its loop. -/
theorem WellFormed.setPos (hw : WellFormed s) {t : Tid} {p : Position}
    (h : ∀ i l, (s.sem_set i).wait_list = some l → t ∈ l → p = .sleeping i ∨ p = .relocking i) :
    WellFormed (s.setPos t p) := by
  intro i l hl
  obtain ⟨hnodup, hmem⟩ := hw i l hl
  refine ⟨hnodup, fun u hu => ⟨?_, (hmem u hu).2⟩⟩
  by_cases hut : u = t
  · subst hut
    simpa [InLoop] using h i l hl hu
  · simpa [InLoop, hut] using (hmem u hu).1

/-- A thread that waits in a list must not be set up. -/
theorem WellFormed.setWaiter (hw : WellFormed s) {t : Tid} {w : MysemaphoreWaiter}
    (h : ∀ i l, (s.sem_set i).wait_list = some l → t ∈ l → w.up = false) :
    WellFormed (s.setWaiter t w) := by
  intro i l hl
  obtain ⟨hnodup, hmem⟩ := hw i l hl
  refine ⟨hnodup, fun u hu => ⟨(hmem u hu).1, ?_⟩⟩
  by_cases hut : u = t
  · subst hut
    simpa using h i l hl hu
  · simpa [hut] using (hmem u hu).2

/-- The task states do not matter for the wait lists. -/
theorem WellFormed.setTask (hw : WellFormed s) (t : Tid) (k : TaskState) :
    WellFormed (s.setTask t k) :=
  hw

end WellFormed

/-! ## The steps -/

variable [DecidableEq Tid]

/-- The steps from `s`. -/
inductive Effect (s : State Tid) : Event Tid → State Tid → Prop
  | rejected {t : Tid} {c : Call} : s.pos t = .idle → check s.sem_set c = none →
      Effect s (.rejected t c) s
  | checked {t : Tid} {c : Call} {k : Commit} : s.pos t = .idle → check s.sem_set c = some k →
      Effect s (.checked t k) (s.setPos t (.checked k))
  | initialised {t : Tid} {i : SemaId} {start_value mode : Int} :
      s.pos t = .checked (.init i start_value mode) →
      Effect s (.initialised t i)
        ((s.setSem i ⟨mode, (start_value % UINT_RANGE).toNat, ACTIVE, some []⟩).setPos t .idle)
  | decremented {t : Tid} {i : SemaId} {p : Option Int} : s.pos t = .checked (.down i p) →
      0 < (s.sem_set i).count →
      Effect s (.decremented t i)
        ((s.setSem i { s.sem_set i with count := (s.sem_set i).count - 1 }).setPos t .idle)
  | slept {t : Tid} {i : SemaId} {p : Option Int} {junk : Int} {l : List Tid} :
      s.pos t = .checked (.down i p) → (s.sem_set i).count = 0 →
      (s.sem_set i).wait_list = some l →
      Effect s (.slept t i)
        ((((s.setSem i { s.sem_set i with wait_list := some (l ++ [t]) }).setWaiter t
          ⟨p.getD junk, false⟩).setTask t .TASK_UNINTERRUPTIBLE).setPos t (.sleeping i))
  | incremented {t : Tid} {i : SemaId} : s.pos t = .checked (.up i) →
      (s.sem_set i).wait_list = some [] →
      Effect s (.incremented t i)
        ((s.setSem i
          { s.sem_set i with count := ((s.sem_set i).count + 1) % UINT_RANGE }).setPos t .idle)
  | handed {t w : Tid} {i : SemaId} {prio : Tid → Int} {l l' : List Tid} :
      s.pos t = .checked (.up i) → (s.sem_set i).wait_list = some l → l ≠ [] →
      wakeOrder (s.sem_set i).mode prio s.waiter l = some (w :: l') →
      Effect s (.handed t w i)
        ((((s.setSem i { s.sem_set i with wait_list := some l' }).setWaiter w
          { s.waiter w with up := true }).setTask w .TASK_RUNNING).setPos t .idle)
  | upFailed {t : Tid} {i : SemaId} {prio : Tid → Int} {l : List Tid} :
      s.pos t = .checked (.up i) → (s.sem_set i).wait_list = some l → l ≠ [] →
      wakeOrder (s.sem_set i).mode prio s.waiter l = none →
      Effect s (.upFailed t i) (s.setPos t .idle)
  | released {t : Tid} {i : SemaId} : s.pos t = .checked (.release i) →
      Effect s (.released t i)
        ((s.setSem i { s.sem_set i with state := INACTIVE }).setPos t .idle)
  | woken {t : Tid} : Effect s (.woken t) (s.setTask t .TASK_RUNNING)
  | scheduled {t : Tid} {i : SemaId} : s.pos t = .sleeping i → s.task t = .TASK_RUNNING →
      Effect s (.scheduled t i) (s.setPos t (.relocking i))
  | sleptAgain {t : Tid} {i : SemaId} : s.pos t = .relocking i → (s.waiter t).up = false →
      Effect s (.sleptAgain t i) ((s.setTask t .TASK_UNINTERRUPTIBLE).setPos t (.sleeping i))
  | left {t : Tid} {i : SemaId} : s.pos t = .relocking i → (s.waiter t).up = true →
      Effect s (.left t i) (s.setPos t .idle)

/-- What the locked part of a down can do. -/
theorem effect_of_downCommit {s s' : State Tid} {t : Tid} {i : SemaId} {p : Option Int}
    {junk : Int} {e : Event Tid} (hpos : s.pos t = .checked (.down i p))
    (h : downCommit s t i p junk = some (e, s')) : Effect s e s' := by
  simp only [downCommit] at h
  split at h
  · cases h
    exact .decremented hpos ‹_›
  · rename_i hcount
    split at h
    · cases h
    · cases h
      exact .slept hpos (Nat.eq_zero_of_not_pos hcount) ‹_›

/-- What the locked part of an up can do. -/
theorem effect_of_upCommit {s s' : State Tid} {t : Tid} {i : SemaId} {prio : Tid → Int}
    {e : Event Tid} (hpos : s.pos t = .checked (.up i))
    (h : upCommit s t i prio = some (e, s')) : Effect s e s' := by
  simp only [upCommit] at h
  split at h
  · cases h
  · cases h
    exact .incremented hpos ‹_›
  · rename_i hlist
    split at h
    · cases h
      exact .upFailed hpos hlist (by simp) ‹_›
    · cases h
    · cases h
      exact .handed hpos hlist (by simp) ‹_›

/-- Every step of the machine is one of those. -/
theorem effect_of_step {s s' : State Tid} {e : Event Tid} (h : StepBy step s e s') :
    Effect s e s' := by
  obtain ⟨a, h⟩ := h
  cases a with
  | call t c =>
    simp only [step] at h
    split at h
    · rename_i hpos
      split at h
      · cases h
        exact .rejected hpos ‹_›
      · cases h
        exact .checked hpos ‹_›
    · cases h
  | commit t junk prio =>
    simp only [step] at h
    split at h
    · cases h
      exact .initialised ‹_›
    · exact effect_of_downCommit ‹_› h
    · exact effect_of_upCommit ‹_› h
    · cases h
      exact .released ‹_›
    · cases h
  | wake t =>
    cases h
    exact .woken
  | schedule t =>
    simp only [step] at h
    split at h
    · cases h
      exact .scheduled ‹_› ‹_›
    · cases h
  | relock t =>
    simp only [step] at h
    split at h
    · rename_i hpos
      split at h
      · cases h
        exact .left hpos ‹_›
      · cases h
        exact .sleptAgain hpos (by simpa using ‹¬ (s.waiter t).up = true›)
    · cases h

/-- The thread `w` was taken out of the wait list, its waiter is up, and it runs again. -/
structure WokenUp (i : SemaId) (w : Tid) (s s' : State Tid) : Prop where
  list : ∃ l l', (s.sem_set i).wait_list = some l ∧ l.Perm (w :: l') ∧
    (s'.sem_set i).wait_list = some l'
  up : (s'.waiter w).up = true
  running : s'.task w = .TASK_RUNNING

/-- An up that hands over wakes the thread. -/
theorem wokenUp_of_effect {s s' : State Tid} {t w : Tid} {i : SemaId}
    (h : Effect s (.handed t w i) s') : WokenUp i w s s' := by
  cases h with
  | @handed _ _ _ prio l l' hpos hl hne ho =>
    exact ⟨⟨l, l', hl, (wakeOrder_perm ho).symm, by simp⟩, by simp, by simp⟩

/-- Every step keeps the wait lists well formed. -/
theorem wellFormed_effect {s s' : State Tid} {e : Event Tid} (hw : WellFormed s)
    (h : Effect s e s') : WellFormed s' := by
  cases h with
  | rejected hpos hc => exact hw
  | checked hpos hc =>
    refine hw.setPos fun i l hl hm => ?_
    exact absurd hm (hw.not_mem (not_inLoop_of_idle hpos) hl)
  | @initialised t i v m hpos =>
    have hw₁ : WellFormed (s.setSem i ⟨m, (v % UINT_RANGE).toNat, ACTIVE, some []⟩) := by
      refine hw.setSem fun l hl => ?_
      cases hl
      simp
    refine hw₁.setPos fun j l hl hm => ?_
    exact absurd hm (hw₁.not_mem (not_inLoop_of_checked hpos) hl)
  | @decremented t i p hpos hcount =>
    have hw₁ : WellFormed (s.setSem i { s.sem_set i with count := (s.sem_set i).count - 1 }) :=
      hw.setSem fun l hl => hw i l hl
    refine hw₁.setPos fun j l hl hm => ?_
    exact absurd hm (hw₁.not_mem (not_inLoop_of_checked hpos) hl)
  | @slept t i p junk l hpos hcount hl =>
    have hout := not_inLoop_of_checked hpos
    -- the thread goes to the loop first, so that it may enter the list there
    have hw₁ : WellFormed (((s.setWaiter t ⟨p.getD junk, false⟩).setTask t
        .TASK_UNINTERRUPTIBLE).setPos t (.sleeping i)) := by
      refine ((hw.setWaiter fun _ _ _ _ => rfl).setTask t _).setPos fun j l' hl' hm => ?_
      exact absurd hm (hw.not_mem hout hl')
    refine hw₁.setSem fun l' hl' => ?_
    cases hl'
    obtain ⟨hnodup, hmem⟩ := hw₁ i l hl
    have hnot : t ∉ l := hw.not_mem hout hl
    refine ⟨List.nodup_append.2 ⟨hnodup, by simp, ?_⟩, fun u hu => ?_⟩
    · rintro a ha b hb rfl
      exact hnot (List.mem_singleton.1 hb ▸ ha)
    · rcases List.mem_append.1 hu with hu | hu
      · exact hmem u hu
      · obtain rfl := List.mem_singleton.1 hu
        simp [InLoop]
  | @incremented t i hpos hl =>
    have hw₁ : WellFormed (s.setSem i
        { s.sem_set i with count := ((s.sem_set i).count + 1) % UINT_RANGE }) :=
      hw.setSem fun l hl => hw i l hl
    refine hw₁.setPos fun j l hl hm => ?_
    exact absurd hm (hw₁.not_mem (not_inLoop_of_checked hpos) hl)
  | @handed t w i prio l l' hpos hl hne ho =>
    have hperm := wakeOrder_perm ho
    obtain ⟨hnodup, hmem⟩ := hw i l hl
    obtain ⟨hw', hnodup'⟩ := List.nodup_cons.1 (hperm.nodup_iff.2 hnodup)
    have hsub : ∀ u ∈ l', u ∈ l := fun u hu => hperm.mem_iff.1 (List.mem_cons_of_mem w hu)
    have hwl := hmem w (hperm.mem_iff.1 List.mem_cons_self)
    have hw₁ : WellFormed (s.setSem i { s.sem_set i with wait_list := some l' }) := by
      refine hw.setSem fun l₁ hl₁ => ?_
      cases hl₁
      exact ⟨hnodup', fun u hu => hmem u (hsub u hu)⟩
    -- the waiter that comes up is in no other list, for its thread is in one loop only
    have hw₂ : WellFormed (((s.setSem i { s.sem_set i with wait_list := some l' }).setWaiter w
        { s.waiter w with up := true }).setTask w .TASK_RUNNING) := by
      refine (hw₁.setWaiter fun j l₁ hl₁ hm => ?_).setTask w _
      have hj := (hw₁ j l₁ hl₁).2 w hm
      obtain rfl : i = j := hwl.1.of_eq hj.1
      obtain rfl : l' = l₁ := by simpa using hl₁
      exact absurd hm hw'
    refine hw₂.setPos fun j l₁ hl₁ hm => ?_
    exact absurd hm (hw₂.not_mem (not_inLoop_of_checked hpos) hl₁)
  | upFailed hpos hl hne ho =>
    refine hw.setPos fun j l hl hm => ?_
    exact absurd hm (hw.not_mem (not_inLoop_of_checked hpos) hl)
  | @released t i hpos =>
    have hw₁ : WellFormed (s.setSem i { s.sem_set i with state := INACTIVE }) :=
      hw.setSem fun l hl => hw i l hl
    refine hw₁.setPos fun j l hl hm => ?_
    exact absurd hm (hw₁.not_mem (not_inLoop_of_checked hpos) hl)
  | woken => exact hw.setTask _ _
  | @scheduled t i hpos htask =>
    refine hw.setPos fun j l hl hm => Or.inr ?_
    obtain rfl : i = j := InLoop.of_eq (Or.inl hpos) ((hw j l hl).2 t hm).1
    rfl
  | @sleptAgain t i hpos hup =>
    refine (hw.setTask t _).setPos fun j l hl hm => Or.inl ?_
    obtain rfl : i = j := InLoop.of_eq (Or.inr hpos) ((hw j l hl).2 t hm).1
    rfl
  | @left t i hpos hup =>
    refine hw.setPos fun j l hl hm => ?_
    have h := ((hw j l hl).2 t hm).2
    rw [hup] at h
    cases h

/-- A step at another semaphore, or at none, leaves this one and its waiters alone. -/
theorem untouched_of_effect {s s' : State Tid} {e : Event Tid} {i : SemaId} (hw : WellFormed s)
    (h : Effect s e s') (hi : e.id ≠ some i) : Untouched i s s' := by
  have hother : ∀ (r : State Tid) (t : Tid) (p : Position) (u : Tid), u ≠ t →
      (r.setPos t p).pos u = r.pos u := fun r t p u hu => by simp [hu]
  cases h with
  | rejected hpos hc =>
    exact ⟨rfl, fun _ => Iff.rfl, fun _ _ => rfl, fun _ _ _ => Iff.rfl, fun _ _ h => h⟩
  | @woken t =>
    refine ⟨rfl, fun _ => Iff.rfl, fun _ _ => rfl, fun _ _ _ => Iff.rfl, fun u _ h => ?_⟩
    by_cases hut : u = t
    · simp [hut]
    · simpa [hut] using h
  | @checked t c k hpos hc =>
    refine untouched_of_move t rfl (by simp [hpos, Position.id]) ?_ (hother _ t _)
      (fun _ _ => rfl) fun _ _ h => h
    simpa [Position.id, Event.id] using hi
  | @initialised t j v m hpos =>
    have hij : i ≠ j := fun h => hi (h ▸ rfl)
    refine untouched_of_move t (by simp [hij]) ?_ (by simp [Position.id]) (hother _ t _)
      (fun _ _ => rfl) fun _ _ h => h
    rw [hpos]
    exact hi
  | @decremented t j p hpos hcount =>
    have hij : i ≠ j := fun h => hi (h ▸ rfl)
    refine untouched_of_move t (by simp [hij]) ?_ (by simp [Position.id]) (hother _ t _)
      (fun _ _ => rfl) fun _ _ h => h
    rw [hpos]
    exact hi
  | @slept t j p junk l hpos hcount hl =>
    have hij : i ≠ j := fun h => hi (h ▸ rfl)
    have hut : ∀ u, InLoop s u i → u ≠ t := fun u hu h => not_inLoop_of_checked hpos i (h ▸ hu)
    refine untouched_of_move t (by simp [hij]) ?_ ?_ (hother _ t _) (fun u hu => ?_)
      fun u hu h => ?_
    · rw [hpos]
      exact hi
    · simpa [Position.id] using hij.symm
    · simp [hut u hu]
    · simpa [hut u hu] using h
  | @incremented t j hpos hl =>
    have hij : i ≠ j := fun h => hi (h ▸ rfl)
    refine untouched_of_move t (by simp [hij]) ?_ (by simp [Position.id]) (hother _ t _)
      (fun _ _ => rfl) fun _ _ h => h
    rw [hpos]
    exact hi
  | @handed t w j prio l l' hpos hl hne ho =>
    have hij : i ≠ j := fun h => hi (h ▸ rfl)
    -- the waiter that comes up is in the loop of the other semaphore
    have hwj := ((hw j l hl).2 w ((wakeOrder_perm ho).mem_iff.1 List.mem_cons_self)).1
    have huw : ∀ u, InLoop s u i → u ≠ w := fun u hu h => hij (hu.of_eq (h ▸ hwj))
    refine untouched_of_move t (by simp [hij]) ?_ (by simp [Position.id]) (hother _ t _)
      (fun u hu => ?_) fun u hu h => ?_
    · rw [hpos]
      exact hi
    · simp [huw u hu]
    · simpa [huw u hu] using h
  | @upFailed t j prio l hpos hl hne ho =>
    refine untouched_of_move t rfl ?_ (by simp [Position.id]) (hother _ t _) (fun _ _ => rfl)
      fun _ _ h => h
    rw [hpos]
    exact hi
  | @released t j hpos =>
    have hij : i ≠ j := fun h => hi (h ▸ rfl)
    refine untouched_of_move t (by simp [hij]) ?_ (by simp [Position.id]) (hother _ t _)
      (fun _ _ => rfl) fun _ _ h => h
    rw [hpos]
    exact hi
  | @scheduled t j hpos htask =>
    refine untouched_of_move t rfl ?_ ?_ (hother _ t _) (fun _ _ => rfl) fun _ _ h => h
    · rw [hpos]
      exact hi
    · simpa [Position.id, Event.id] using hi
  | @sleptAgain t j hpos hup =>
    have hij : j ≠ i := fun h => hi (h ▸ rfl)
    refine untouched_of_move t rfl ?_ ?_ (hother _ t _) (fun _ _ => rfl) fun u hu h => ?_
    · rw [hpos]
      exact hi
    · simpa [Position.id, Event.id] using hi
    · have hut : u ≠ t := fun h => hij (InLoop.of_eq (Or.inr hpos) (h ▸ hu))
      simpa [hut] using h
  | @left t j hpos hup =>
    refine untouched_of_move t rfl ?_ (by simp [Position.id]) (hother _ t _) (fun _ _ => rfl)
      fun _ _ h => h
    rw [hpos]
    exact hi

/-- A thread comes to a commit by the checks only. -/
theorem checked_of_effect {s s' : State Tid} {e : Event Tid} {t : Tid} {k : Commit}
    (h : Effect s e s') (hpos : s'.pos t = .checked k) :
    s.pos t = .checked k ∨ e = .checked t k := by
  have hmove : ∀ (r : State Tid) (u : Tid) (p : Position), r.pos = s.pos →
      (∀ k, p ≠ .checked k) → (r.setPos u p).pos t = .checked k → s.pos t = .checked k := by
    intro r u p hr hp ht
    by_cases htu : t = u
    · subst htu
      exact absurd (by simpa using ht) (hp k)
    · rwa [State.setPos_pos, Function.update_of_ne htu, hr] at ht
  cases h with
  | rejected | woken => exact .inl hpos
  | @checked u c j hidle hc =>
    by_cases htu : t = u
    · subst htu
      have hj : j = k := by simpa using hpos
      exact .inr (by rw [hj])
    · exact .inl (by simpa [htu] using hpos)
  | initialised => exact .inl (hmove _ _ _ rfl (by simp) hpos)
  | decremented => exact .inl (hmove _ _ _ rfl (by simp) hpos)
  | slept => exact .inl (hmove _ _ _ rfl (by simp) hpos)
  | incremented => exact .inl (hmove _ _ _ rfl (by simp) hpos)
  | handed => exact .inl (hmove _ _ _ rfl (by simp) hpos)
  | upFailed => exact .inl (hmove _ _ _ rfl (by simp) hpos)
  | released => exact .inl (hmove _ _ _ rfl (by simp) hpos)
  | scheduled => exact .inl (hmove _ _ _ rfl (by simp) hpos)
  | sleptAgain => exact .inl (hmove _ _ _ rfl (by simp) hpos)
  | left => exact .inl (hmove _ _ _ rfl (by simp) hpos)

/-- No thread is about to initialise the semaphore. -/
def NoInit (i : SemaId) (s : State Tid) : Prop :=
  ∀ t v m, s.pos t ≠ .checked (.init i v m)

/-- The checks of an init refuse an active semaphore, so none comes to its commit. -/
theorem noInit_of_effect {s s' : State Tid} {e : Event Tid} {i : SemaId} (h : Effect s e s')
    (hactive : (s.sem_set i).state = ACTIVE) (hno : NoInit i s) : NoInit i s' := by
  intro t v m hpos
  rcases checked_of_effect h hpos with hpos | rfl
  · exact hno t v m hpos
  · cases h with
    | checked _ hc => exact state_ne_active_of_check _ hc hactive

/-- The states that a run of the machine reaches from boot. -/
def Reachable (s : State Tid) : Prop :=
  ∃ τ, Run (StepBy step) (boot Tid) τ s

/-- The wait lists are well formed in every reachable state. -/
theorem Reachable.wellFormed {s : State Tid} (h : Reachable s) : WellFormed s := by
  obtain ⟨τ, hrun⟩ := h
  refine hrun.invariant (fun _ s => WellFormed s) ?_ fun _ hw he =>
    wellFormed_effect hw (effect_of_step he)
  intro i l hl
  cases hl

/-- A run from a reachable state leads to a reachable state. -/
theorem Reachable.run {s s' : State Tid} (h : Reachable s) {τ : List (Event Tid)}
    (hrun : Run (StepBy step) s τ s') : Reachable s' := by
  obtain ⟨τ₀, h₀⟩ := h
  exact ⟨τ ++ τ₀, h₀.append hrun⟩

end EE516.MySemaphore
