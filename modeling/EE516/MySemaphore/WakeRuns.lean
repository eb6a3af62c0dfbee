import EE516.MySemaphore.WakeOrder

/-!
# The order of many wake-ups

In the mode `FIFO` the semaphore is a queue: the threads that the ups of a run wake, followed by
those that still wait, are the threads that waited at first, followed by those that went to sleep in
the run. In the other modes late sleepers may come first; but as long as nobody goes to sleep and,
in the mode `OS`, the priorities of the operating system stay, the ups wake the waiters in the order
in which the first of them sorted the list. The runs start where no init of the semaphore is under
way (`Ready`) and have no release of it.
-/

set_option autoImplicit false

namespace EE516.MySemaphore

open EE516.Foundations

universe u

variable {Tid : Type u} {i : SemaId} {k : Nat} {mode : Int} {s s' : State Tid} {e : Event Tid}
variable {τ : List (Event Tid)} {t w : Tid} {l l' : List Tid} {prio : Tid → Int}

/-- The threads that the ups of a history woke, in the order of the ups. -/
def handedOver (i : SemaId) : List (Event Tid) → List Tid
  | [] => []
  | .handed _ w j :: τ => if j = i then handedOver i τ ++ [w] else handedOver i τ
  | _ :: τ => handedOver i τ

/-- The threads that went to sleep in a history, in their order. -/
def wentToSleep (i : SemaId) : List (Event Tid) → List Tid
  | [] => []
  | .slept t j :: τ => if j = i then wentToSleep i τ ++ [t] else wentToSleep i τ
  | _ :: τ => wentToSleep i τ

theorem handedOver_of_other (h : e.id ≠ some i) : handedOver i (e :: τ) = handedOver i τ := by
  cases e with
  | handed t w j => exact if_neg fun hj => h (congrArg some hj)
  | _ => rfl

theorem wentToSleep_of_other (h : e.id ≠ some i) :
    wentToSleep i (e :: τ) = wentToSleep i τ := by
  cases e with
  | slept t j => exact if_neg fun hj => h (congrArg some hj)
  | _ => rfl

variable [DecidableEq Tid]

/-! ## The queue -/

/-- In the mode `FIFO` those who were woken and those who wait are those who came, in their
order. -/
theorem fifo_step (hready : Ready i FIFO s) (hw : WellFormed s) (he : Effect s e s')
    (hu : Unreleased i e) {came : List Tid} (hl : (s.sem_set i).wait_list = some l)
    (hqueue : handedOver i τ ++ l = came ++ wentToSleep i τ) :
    ∃ l', (s'.sem_set i).wait_list = some l' ∧
      handedOver i (e :: τ) ++ l' = came ++ wentToSleep i (e :: τ) := by
  have hsteady := hready.steady he hu
  by_cases hi : e.id = some i
  case neg =>
    rw [handedOver_of_other hi, wentToSleep_of_other hi, (untouched_of_effect hw he hi).sem]
    exact ⟨l, hl, hqueue⟩
  cases he with
  | rejected | woken => cases hi
  | checked | upFailed | scheduled | sleptAgain | left => exact ⟨l, hl, hqueue⟩
  | initialised | released => exact absurd (Option.some.inj hi) hsteady
  | decremented | incremented =>
    obtain rfl := Option.some.inj hi
    exact ⟨l, by simpa using hl, hqueue⟩
  | @slept t j p junk l₁ hpos hcount hl₁ =>
    obtain rfl := Option.some.inj hi
    obtain rfl : l = l₁ := Option.some.inj (hl.symm.trans hl₁)
    -- a sleeper queues up at the end
    refine ⟨l ++ [t], by simp, ?_⟩
    simp only [handedOver, wentToSleep, if_true]
    rw [← List.append_assoc, hqueue, List.append_assoc]
  | @handed t w j prio l₁ l₂ hpos hl₁ hne ho =>
    obtain rfl := Option.some.inj hi
    obtain rfl : l = l₁ := Option.some.inj (hl.symm.trans hl₁)
    -- the first of the list is woken
    rw [hready.mode] at ho
    obtain rfl : l = w :: l₂ := Option.some.inj ho
    refine ⟨l₂, by simp, ?_⟩
    simp only [handedOver, wentToSleep, if_true]
    rw [← hqueue, List.append_assoc, List.singleton_append]

/-- In the mode `FIFO`, in every run without a release that starts with no init of the semaphore
under way: the threads woken in the run, followed by those who wait at the end, are those who waited
at the beginning, followed by those who went to sleep in the run. So a thread with `n` waiters
before it is woken by the `n + 1`st up, whoever comes later. -/
theorem fifo_queue (hreach : Reachable s) (hready : Ready i FIFO s)
    (hl : (s.sem_set i).wait_list = some l)
    (hrun : Run (fun s e s' => StepBy step s e s' ∧ Unreleased i e) s τ s') :
    ∃ l', (s'.sem_set i).wait_list = some l' ∧ handedOver i τ ++ l' = l ++ wentToSleep i τ := by
  refine hrun.invariant (fun τ s' => ∃ l', (s'.sem_set i).wait_list = some l' ∧
    handedOver i τ ++ l' = l ++ wentToSleep i τ) ⟨l, hl, by simp [handedOver, wentToSleep]⟩ ?_
  rintro τ s₁ e s₂ hrun ⟨l₁, hl₁, hqueue⟩ ⟨hstep, hu⟩
  have hw := (hreach.run (hrun.mono fun h => h.1)).wellFormed
  exact fifo_step (hready.run hreach hrun) hw (effect_of_step hstep) hu hl₁ hqueue

/-- Two threads sleep, a third one goes to sleep between the two ups. -/
theorem fifo_queue_late :
    ∃ (s s' : State (Fin 4)) (τ : List (Event (Fin 4))), (s.sem_set 2).wait_list = some [1, 2] ∧
      Run (StepBy step) s τ s' ∧ wentToSleep 2 τ = [3] ∧
      ∃ l', handedOver 2 τ ++ l' = [1, 2] ++ [3] := by
  let l₀ : List (Action (Fin 4)) := [.call 0 (.init 2 0 FIFO), .commit 0 0 fun _ => 0]
  let r₀ := (perform step [] (boot (Fin 4)) l₀).get rfl
  let l₁ : List (Action (Fin 4)) :=
    [.call 1 (.down 2), .commit 1 0 fun _ => 0, .call 2 (.down 2), .commit 2 0 fun _ => 0]
  let r₁ := (perform (restrict step fun _ => Unreleased 2) [] r₀.2 l₁).get rfl
  let l : List (Action (Fin 4)) :=
    [.call 0 (.up 2), .commit 0 0 fun _ => 0, .call 3 (.down 2), .commit 3 0 fun _ => 0,
      .call 0 (.up 2), .commit 0 0 fun _ => 0]
  let r := (perform (restrict step fun _ => Unreleased 2) [] r₁.2 l).get rfl
  have hrun₀ : Run (StepBy step) (boot (Fin 4)) r₀.1 r₀.2 := run_of_get rfl
  have hidle : ∀ t, r₀.2.pos t = .idle := by decide
  have hno : NoInit 2 r₀.2 := fun t v m h => by cases (hidle t).symm.trans h
  have hrun₁ : Run (StepBy (restrict step fun _ => Unreleased 2)) r₀.2 r₁.1 r₁.2 := run_of_get rfl
  have hrun : Run (StepBy (restrict step fun _ => Unreleased 2)) r₁.2 r.1 r.2 := run_of_get rfl
  have hready : Ready 2 FIFO r₁.2 :=
    (ready_of_sem rfl hno).run ⟨_, hrun₀⟩ (hrun₁.mono stepBy_restrict)
  have hreach : Reachable r₁.2 :=
    .run ⟨_, hrun₀⟩ (hrun₁.mono fun h => (stepBy_restrict h).1)
  obtain ⟨l', -, hqueue⟩ := fifo_queue hreach hready rfl (hrun.mono stepBy_restrict)
  exact ⟨r₁.2, r.2, r.1, rfl, hrun.mono fun h => (stepBy_restrict h).1, rfl, l', hqueue⟩

/-! ## The sorted list -/

/-- The key by which an up sorts the waiters, in whatever mode. -/
def sortKey (mode : Int) (prio : Tid → Int) (waiter : Tid → MysemaphoreWaiter) (t : Tid) : Int :=
  if mode = OS then prio t else wakeKey mode waiter t

omit [DecidableEq Tid] in
/-- In every valid mode the wake order is the wait list, stably sorted by the key. -/
theorem wakeOrder_sorted_of_valid {waiter : Tid → MysemaphoreWaiter}
    (h : wakeOrder mode prio waiter l = some l') :
    SameClasses (sortKey mode prio waiter) l' l ∧
      l'.Pairwise fun a b => sortKey mode prio waiter a ≤ sortKey mode prio waiter b := by
  have hmode : ValidMode mode := by
    by_contra hinvalid
    rw [wakeOrder_eq_none.2 hinvalid] at h
    cases h
  by_cases hos : mode = OS
  · subst hos
    have hkey : sortKey OS prio waiter = prio := funext fun t => if_pos rfl
    cases h
    have hle : (fun a b => decide (OS_mode_cmp prio a b ≤ 0)) =
        fun a b => decide (prio a ≤ prio b) := by
      funext a b
      rw [decide_eq_decide]
      exact compare_le_zero_iff
    rw [hkey, list_sort, hle]
    exact ⟨sameClasses_mergeSort _ _, pairwise_mergeSort _ _⟩
  · have hkey : sortKey mode prio waiter = wakeKey mode waiter := funext fun t => if_neg hos
    rw [hkey]
    refine wakeOrder_sorted ?_ h
    rcases hmode with h | h | h
    · exact .inl h
    · exact absurd h hos
    · exact .inr h

omit [DecidableEq Tid] in
/-- Only the mode `OS` looks at the priorities of the operating system. -/
theorem wakeOrder_congr {waiter : Tid → MysemaphoreWaiter} {p : Tid → Int}
    (hp : mode = OS → p = prio) : wakeOrder mode p waiter l = wakeOrder mode prio waiter l := by
  by_cases hos : mode = OS
  · rw [hp hos]
  · simp only [wakeOrder, if_neg hos]

/-- A step in which nobody goes to sleep at the semaphore and nobody releases it; in the mode `OS`
the operating system has the priorities `prio`. -/
def UpStep (i : SemaId) (mode : Int) (prio : Tid → Int) (s : State Tid) (e : Event Tid)
    (s' : State Tid) : Prop :=
  (∃ a, step s a = some (e, s') ∧ ∀ t junk p, a = .commit t junk p → mode = OS → p = prio) ∧
    Unreleased i e ∧ ∀ t, e ≠ .slept t i

/-- Those who were woken came first in the order of the key, and those who wait still have their
keys. -/
structure Sorted (i : SemaId) (mode : Int) (prio : Tid → Int) (waiter : Tid → MysemaphoreWaiter)
    (l : List Tid) (τ : List (Event Tid)) (s : State Tid) : Prop where
  woken : (handedOver i τ).Pairwise fun a b =>
    sortKey mode prio waiter a ≤ sortKey mode prio waiter b
  list : ∃ l', (s.sem_set i).wait_list = some l' ∧
    SameClasses (sortKey mode prio waiter) (handedOver i τ ++ l') l ∧
    (∀ a ∈ handedOver i τ, ∀ b ∈ l', sortKey mode prio waiter a ≤ sortKey mode prio waiter b) ∧
    ∀ t ∈ l', (s.waiter t).priority = (waiter t).priority

omit [DecidableEq Tid] in
theorem sortKey_congr {waiter waiter' : Tid → MysemaphoreWaiter}
    (h : (waiter' t).priority = (waiter t).priority) :
    sortKey mode prio waiter' t = sortKey mode prio waiter t := by
  rw [sortKey, sortKey, wakeKey_congr h]

/-- Each up takes the next thread of the order in which the first up sorted the list. -/
theorem Sorted.step {waiter : Tid → MysemaphoreWaiter} (h : Sorted i mode prio waiter l τ s)
    (hready : Ready i mode s) (hw : WellFormed s) (hstep : UpStep i mode prio s e s') :
    Sorted i mode prio waiter l (e :: τ) s' := by
  obtain ⟨⟨a, ha, hprio⟩, hu, hslept⟩ := hstep
  have he : Effect s e s' := effect_of_step ⟨a, ha⟩
  have hsteady := hready.steady he hu
  obtain ⟨l₁, hl₁, hclasses, hbefore, hsame⟩ := h.list
  by_cases hi : e.id = some i
  case neg =>
    have hother := untouched_of_effect hw he hi
    refine ⟨by rw [handedOver_of_other hi]; exact h.woken, l₁, by rw [hother.sem, hl₁], ?_⟩
    rw [handedOver_of_other hi]
    refine ⟨hclasses, hbefore, fun t ht => ?_⟩
    rw [hother.waiter t ((hw i l₁ hl₁).2 t ht).1, hsame t ht]
  cases he with
  | rejected | woken => cases hi
  | checked | upFailed | scheduled | sleptAgain | left =>
    exact ⟨h.woken, l₁, hl₁, hclasses, hbefore, hsame⟩
  | initialised | released => exact absurd (Option.some.inj hi) hsteady
  | decremented | incremented =>
    obtain rfl := Option.some.inj hi
    exact ⟨h.woken, l₁, by simpa using hl₁, hclasses, hbefore, hsame⟩
  | @slept t j p junk l₂ hpos hcount hl₂ =>
    obtain rfl := Option.some.inj hi
    exact absurd rfl (hslept t)
  | @handed t w j p₀ l₂ l₃ hpos hl₂ hne ho =>
    obtain rfl := Option.some.inj hi
    obtain ⟨junk, p, l₂', l₃', rfl, hl₂', ho', hl₃'⟩ := handed_of_step ha
    obtain rfl : l₁ = l₂' := Option.some.inj (hl₁.symm.trans hl₂')
    rw [hready.mode, wakeOrder_congr (hprio t junk p rfl)] at ho'
    obtain ⟨hsorted, hpairwise⟩ := wakeOrder_sorted_of_valid ho'
    have hperm := wakeOrder_perm ho'
    -- the up sorts what is left by the same keys
    have hkey : ∀ u ∈ w :: l₃', sortKey mode prio s.waiter u = sortKey mode prio waiter u :=
      fun u hu => sortKey_congr (hsame u (hperm.mem_iff.1 hu))
    have hnow : SameClasses (sortKey mode prio waiter) (w :: l₃') l₁ :=
      hsorted.congr_key fun u hu => (hkey u hu).symm
    -- so the thread that it takes comes before all that stay
    have hleast : ∀ u ∈ l₃', sortKey mode prio waiter w ≤ sortKey mode prio waiter u := by
      intro u hu
      have hle := (List.pairwise_cons.1 hpairwise).1 u hu
      rwa [hkey w List.mem_cons_self, hkey u (List.mem_cons_of_mem w hu)] at hle
    have hover : handedOver j (.handed t w j :: τ) = handedOver j τ ++ [w] := if_pos rfl
    refine ⟨?_, l₃', hl₃', ?_, ?_, fun u hu => ?_⟩
    · rw [hover, List.pairwise_append]
      refine ⟨h.woken, List.pairwise_singleton _ _, fun a ha b hb => ?_⟩
      rw [List.mem_singleton.1 hb]
      exact hbefore a ha w (hperm.mem_iff.1 List.mem_cons_self)
    · rw [hover, List.append_assoc, List.singleton_append]
      exact (hnow.append_left _).trans hclasses
    · intro a ha b hb
      rw [hover] at ha
      rcases List.mem_append.1 ha with ha | ha
      · exact hbefore a ha b (hperm.mem_iff.1 (List.mem_cons_of_mem w hb))
      · rw [List.mem_singleton.1 ha]
        exact hleast b hb
    · have hsame := hsame u (hperm.mem_iff.1 (List.mem_cons_of_mem w hu))
      by_cases huw : u = w
      · subst huw
        simpa using hsame
      · simpa [huw] using hsame

/-- While nobody goes to sleep at the semaphore, nobody releases it and, in the mode `OS`, the
priorities stay, the ups wake the waiters in the order in which the first up puts them: by the
priorities of the operating system, by those of the waiters, or as they came; of waiters with the
same priority the one that came first is woken first. As many ups as there are waiters wake them
all. -/
theorem ups_wake_in_order (hreach : Reachable s) (hready : Ready i mode s) (hmode : ValidMode mode)
    (hl : (s.sem_set i).wait_list = some l) (hrun : Run (UpStep i mode prio) s τ s') :
    ∃ o l' r, wakeOrder mode prio s.waiter l = some o ∧
      SameClasses (sortKey mode prio s.waiter) o l ∧
      (o.Pairwise fun a b => sortKey mode prio s.waiter a ≤ sortKey mode prio s.waiter b) ∧
      (s'.sem_set i).wait_list = some l' ∧ r.Perm l' ∧ o = handedOver i τ ++ r ∧
      (ups i τ = l.length → o = handedOver i τ) := by
  have hrun' : Run (fun s e s' => StepBy step s e s' ∧ Unreleased i e) s τ s' :=
    hrun.mono fun h => ⟨h.1.imp fun _ h => h.1, h.2.1⟩
  have hslept : ∀ t, .slept t i ∉ τ := by
    refine hrun.invariant (fun τ _ => ∀ t, .slept t i ∉ τ) (fun _ => List.not_mem_nil) ?_
    intro τ s₁ e s₂ _ ih hstep t ht
    rcases List.mem_cons.1 ht with rfl | ht
    · exact hstep.2.2 t rfl
    · exact ih t ht
  have hsorted : Sorted i mode prio s.waiter l τ s' := by
    refine hrun.invariant (fun τ s' => Sorted i mode prio s.waiter l τ s')
      ⟨List.Pairwise.nil, l, hl, .refl _ _, (by simp [handedOver]), fun _ _ => rfl⟩ ?_
    intro τ s₁ e s₂ hrun ih hstep
    have hrun₁ : Run (fun s e s' => StepBy step s e s' ∧ Unreleased i e) s τ s₁ :=
      hrun.mono fun h => ⟨h.1.imp fun _ h => h.1, h.2.1⟩
    exact ih.step (hready.run hreach hrun₁) (hreach.run (hrun₁.mono fun h => h.1)).wellFormed hstep
  obtain ⟨l', hl', hclasses, hbefore, hsame⟩ := hsorted.list
  cases ho : wakeOrder mode prio s.waiter l with
  | none => exact absurd hmode (wakeOrder_eq_none.1 ho)
  | some o =>
    obtain ⟨hfirst, hpairwise⟩ := wakeOrder_sorted_of_valid ho
    let r := l'.mergeSort fun a b =>
      decide (sortKey mode prio s.waiter a ≤ sortKey mode prio s.waiter b)
    have hperm : r.Perm l' := List.mergeSort_perm _ _
    -- two stably sorted lists with the same classes are equal
    have heq : o = handedOver i τ ++ r := by
      have hsame : SameClasses (sortKey mode prio s.waiter) o (handedOver i τ ++ r) := by
        have hr := (sameClasses_mergeSort (sortKey mode prio s.waiter) l').append_left
          (handedOver i τ)
        exact hfirst.trans fun k => ((hr.trans hclasses) k).symm
      refine hsame.eq_of_pairwise hpairwise ?_
      refine List.pairwise_append.2 ⟨hsorted.woken, pairwise_mergeSort _ _, ?_⟩
      exact fun a ha b hb => hbefore a ha b (hperm.mem_iff.1 hb)
    refine ⟨o, l', r, rfl, hfirst, hpairwise, hl', hperm, heq, fun hups => ?_⟩
    obtain ⟨l'', hl'', hlen, -⟩ :=
      length_add_ups hreach hready hmode hl hrun' hslept (Nat.le_of_eq hups)
    obtain rfl : l' = l'' := Option.some.inj (hl'.symm.trans hl'')
    have hnil : r = [] := List.length_eq_zero_iff.1 (by rw [hperm.length_eq]; omega)
    rw [heq, hnil, List.append_nil]

/-- The thread with the priority 0 came later than that with the priority 30 and is woken first. -/
theorem ups_wake_in_order_user :
    ∃ (s s' : State (Fin 3)), (s.sem_set 2).wait_list = some [1, 2] ∧
      StepBy step s (.handed 0 2 2) s' := by
  let l₀ : List (Action (Fin 3)) := [.call 0 (.init 2 0 USER), .commit 0 0 fun _ => 0]
  let r₀ := (perform step [] (boot (Fin 3)) l₀).get rfl
  let l : List (Action (Fin 3)) :=
    [.call 1 (.down_userprio 2 30), .commit 1 0 fun _ => 0,
      .call 2 (.down_userprio 2 0), .commit 2 0 fun _ => 0, .call 0 (.up 2)]
  let r := (perform (restrict step fun _ => Unreleased 2) [] r₀.2 l).get rfl
  have hrun₀ : Run (StepBy step) (boot (Fin 3)) r₀.1 r₀.2 := run_of_get rfl
  have hidle : ∀ t, r₀.2.pos t = .idle := by decide
  have hno : NoInit 2 r₀.2 := fun t v m h => by cases (hidle t).symm.trans h
  have hrun : Run (StepBy (restrict step fun _ => Unreleased 2)) r₀.2 r.1 r.2 := run_of_get rfl
  have hready : Ready 2 USER r.2 :=
    (ready_of_sem rfl hno).run ⟨_, hrun₀⟩ (hrun.mono stepBy_restrict)
  have hreach : Reachable r.2 := .run ⟨_, hrun₀⟩ (hrun.mono fun h => (stepBy_restrict h).1)
  obtain ⟨e, s', hcommit, hiff⟩ := upCommit_progresses_iff hready 0 fun _ => 0
  obtain ⟨w, l', rfl, hperm, -⟩ := hiff.2 (by decide)
  have hstep : step r.2 (.commit 0 0 fun _ => 0) = some (.handed 0 w 2, s') := hcommit
  have hup : UpStep 2 USER (fun _ => 0) r.2 (.handed 0 w 2) s' :=
    ⟨⟨_, hstep, fun t junk p h _ => by cases h; rfl⟩, trivial, fun t h => by cases h⟩
  obtain ⟨o, -, q, -, hclasses, hsorted, -, -, rfl, -⟩ :=
    ups_wake_in_order (l := [1, 2]) hreach hready (by decide) rfl (.step .start hup)
  have hw : w = 2 := by
    rcases List.mem_cons.1 (hperm.mem_iff.2 List.mem_cons_self) with rfl | hw
    · have htwo : (2 : Fin 3) ∈ q := by
        have hmem := hclasses.mem_iff.2 (List.mem_cons_of_mem 1 (List.mem_singleton_self 2))
        simpa [handedOver] using hmem
      have hle := (List.pairwise_append.1 hsorted).2.2 1 (by simp [handedOver]) 2 htwo
      exact absurd hle (by decide)
    · exact List.mem_singleton.1 hw
  exact ⟨r.2, s', rfl, _, hw ▸ hstep⟩

end EE516.MySemaphore
