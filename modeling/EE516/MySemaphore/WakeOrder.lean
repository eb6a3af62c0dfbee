import EE516.Foundations.StableSort
import EE516.MySemaphore.Progress

/-!
# The order of waking

An up sorts the wait list in place, and later downs add to the end of it. In the mode `USER` the
sort is stable, so among waiters of the same priority the list keeps the order in which they went to
sleep, through any mixture of downs and ups; in the mode `FIFO` it keeps the whole order. The order
of sleeping is read from the history (`queue`), and so are the priorities (`callPriority`).
-/

set_option autoImplicit false

namespace EE516.MySemaphore

open EE516.Foundations

universe u

variable {Tid : Type u} {i : SemaId} {k : Nat} {mode : Int}
variable {s₀ s s' : State Tid} {a : Action Tid} {e : Event Tid} {t w : Tid} {l l' : List Tid}
variable {τ : List (Action Tid × Event Tid)}

/-! ## The order of an up -/

/-- The key by which an up orders the waiters; the mode `FIFO` orders them by nothing. -/
def wakeKey (mode : Int) (waiter : Tid → MysemaphoreWaiter) (t : Tid) : Int :=
  if mode = USER then (waiter t).priority else 0

/-- The comparison of the sort is the one of the priorities. -/
theorem compare_le_zero_iff {priorityA priorityB : Int} :
    compare priorityA priorityB ≤ 0 ↔ priorityA ≤ priorityB := by
  simp only [compare]
  split
  · omega
  · split <;> omega

/-- An up looks at the waiters by their keys, and leaves those with the same key in their order. -/
theorem wakeOrder_sorted {prio : Tid → Int} {waiter : Tid → MysemaphoreWaiter}
    (hmode : mode = FIFO ∨ mode = USER) (h : wakeOrder mode prio waiter l = some l') :
    SameClasses (wakeKey mode waiter) l' l ∧
      l'.Pairwise fun a b => wakeKey mode waiter a ≤ wakeKey mode waiter b := by
  rcases hmode with rfl | rfl
  · cases h
    exact ⟨.refl _ _, List.pairwise_of_forall fun _ _ => Int.le_refl 0⟩
  · cases h
    have hle : (fun a b => decide (USER_mode_cmp waiter a b ≤ 0)) =
        fun a b => decide (wakeKey USER waiter a ≤ wakeKey USER waiter b) := by
      funext a b
      rw [decide_eq_decide]
      exact compare_le_zero_iff
    rw [list_sort, hle]
    exact ⟨sameClasses_mergeSort _ _, pairwise_mergeSort _ _⟩

theorem wakeKey_congr {waiter waiter' : Tid → MysemaphoreWaiter}
    (h : (waiter' t).priority = (waiter t).priority) :
    wakeKey mode waiter' t = wakeKey mode waiter t := by
  rw [wakeKey, wakeKey, h]

variable [DecidableEq Tid]

/-! ## Reading a history of actions and their events -/

/-- The priority of the last down that the thread called; a down without a priority counts as the
lowest. -/
def callPriority (t : Tid) : List (Action Tid × Event Tid) → Int
  | [] => 0
  | (.call u (.down _), _) :: τ => if u = t then 100 else callPriority t τ
  | (.call u (.down_userprio _ priority), _) :: τ =>
    if u = t then max 0 (min priority 100) else callPriority t τ
  | _ :: τ => callPriority t τ

/-- The waiters in the order in which they went to sleep. -/
def queue (i : SemaId) : List (Action Tid × Event Tid) → List Tid
  | [] => []
  | (_, .slept t j) :: τ => if j = i then queue i τ ++ [t] else queue i τ
  | (_, .handed _ w j) :: τ =>
    if j = i then (queue i τ).filter fun t => t ≠ w else queue i τ
  | _ :: τ => queue i τ

theorem queue_of_other (h : e.id ≠ some i) : queue i ((a, e) :: τ) = queue i τ := by
  cases e with
  | slept t j => exact if_neg fun hj => h (congrArg some hj)
  | handed t w j => exact if_neg fun hj => h (congrArg some hj)
  | _ => rfl

/-- A thread that is in a call makes no other one. -/
theorem callPriority_of_busy (hstep : step s a = some (e, s')) (hbusy : s.pos t ≠ .idle) :
    callPriority t ((a, e) :: τ) = callPriority t τ := by
  cases a with
  | call u c =>
    have hut : u ≠ t := by
      rintro rfl
      simp only [step, if_neg hbusy] at hstep
      cases hstep
    cases c <;> simp [callPriority, hut]
  | _ => rfl

/-- The priority is clamped to the range from 0 to 100. -/
theorem targetPriority_eq (priority : Int) :
    targetPriority priority = max 0 (min priority 100) := by
  simp only [targetPriority, MAX_PRIORITY]
  omega

/-- The priority with which a down in the mode `USER` passes its checks. -/
theorem callPriority_of_checked {c : Call} {p : Option Int}
    (hc : check s.sem_set c = some (.down i p)) (hmode : (s.sem_set i).mode = USER) :
    p = some (callPriority t ((.call t c, e) :: τ)) := by
  cases passes_of_check _ hc with
  | down _ _ hne => exact absurd hmode hne
  | downUser => rw [callPriority, if_pos rfl, targetPriority_eq]; rfl
  | userprioDown _ _ hne =>
    rw [hmode] at hne
    exact absurd hne (by decide)
  | userprio => rw [callPriority, if_pos rfl, targetPriority_eq]

/-! ## Steps -/

/-- The wait list has the waiters in the order in which they went to sleep, up to the sorting by
priorities; the priorities are those of the calls. -/
structure Queued (i : SemaId) (mode : Int) (τ : List (Action Tid × Event Tid)) (s : State Tid) :
    Prop where
  ready : Ready i mode s
  list : ∃ l, (s.sem_set i).wait_list = some l ∧
    SameClasses (wakeKey mode s.waiter) l (queue i τ)
  pending : mode = USER → ∀ t p, s.pos t = .checked (.down i p) → p = some (callPriority t τ)
  asleep : mode = USER → ∀ t, InLoop s t i → (s.waiter t).priority = callPriority t τ

/-- At the start the queue is empty. -/
theorem Started.queued (h : Started i k mode s) : Queued i mode [] s where
  ready := ready_of_sem h.sem fun t v m hpos => h.away t (by rw [hpos]; rfl)
  list := ⟨[], by rw [h.sem], .refl _ _⟩
  pending _ t p hpos := absurd (by rw [hpos]; rfl) (h.away t)
  asleep _ t ht := absurd ht (not_inLoop_of_id (h.away t))

theorem call_of_checked {c : Commit} (hstep : step s a = some (.checked t c, s')) :
    ∃ call, a = .call t call ∧ check s.sem_set call = some c := by
  cases a with
  | call u call =>
    simp only [step] at hstep
    split at hstep
    · split at hstep
      · cases hstep
      · cases hstep
        exact ⟨call, rfl, ‹_›⟩
    · cases hstep
  | commit u junk prio =>
    simp only [step] at hstep
    split at hstep
    · cases hstep
    · simp only [downCommit] at hstep
      split at hstep
      · cases hstep
      · split at hstep <;> cases hstep
    · simp only [upCommit] at hstep
      split at hstep
      · cases hstep
      · cases hstep
      · split at hstep <;> cases hstep
    · cases hstep
    · cases hstep
  | wake u => cases hstep
  | schedule u =>
    simp only [step] at hstep
    split at hstep <;> cases hstep
  | relock u =>
    simp only [step] at hstep
    split at hstep
    · split at hstep <;> cases hstep
    · cases hstep

theorem call_of_rejected {c : Call} (hstep : step s a = some (.rejected t c, s')) :
    a = .call t c := by
  cases a <;> grind [step, downCommit, upCommit, initCommit, releaseCommit]

theorem wake_of_woken (hstep : step s a = some (.woken t, s')) : a = .wake t := by
  cases a <;> grind [step, downCommit, upCommit, initCommit, releaseCommit]

/-- A hand-over is a commit of an up that takes the first thread of the wake order. -/
theorem handed_of_step (hstep : step s a = some (.handed t w i, s')) :
    ∃ junk p l l', a = .commit t junk p ∧ (s.sem_set i).wait_list = some l ∧
      wakeOrder (s.sem_set i).mode p s.waiter l = some (w :: l') ∧
      (s'.sem_set i).wait_list = some l' := by
  cases a with
  | commit u junk p =>
    simp only [step] at hstep
    split at hstep
    · cases hstep
    · simp only [downCommit] at hstep
      split at hstep
      · cases hstep
      · split at hstep <;> cases hstep
    · simp only [upCommit] at hstep
      split at hstep
      · cases hstep
      · cases hstep
      · split at hstep
        · cases hstep
        · cases hstep
        · cases hstep
          exact ⟨junk, p, _, _, rfl, ‹_›, ‹_›, by simp⟩
    · cases hstep
    · cases hstep
  | call | wake | schedule | relock => grind [step]

/-- A thread enters the loop by going to sleep. -/
theorem inLoop_of_effect (he : Effect s e s') (hin : InLoop s' t i) :
    InLoop s t i ∨ e = .slept t i := by
  -- a thread that moves to no place of the loop is in it no more
  have hmove : ∀ (r : State Tid) (u : Tid) (p : Position), r.pos = s.pos → p.id ≠ some i →
      InLoop (r.setPos u p) t i → InLoop s t i := by
    intro r u p hr hp ht
    by_cases htu : t = u
    · subst htu
      exact absurd ht (not_inLoop_of_id (by simpa using hp))
    · refine (inLoop_iff_of_pos ?_ i).1 ht
      rw [State.setPos_pos, Function.update_of_ne htu, hr]
  cases he with
  | rejected | woken => exact .inl hin
  | @checked u c k hidle hc =>
    by_cases htu : t = u
    · subst htu
      simp [InLoop] at hin
    · exact .inl (by simpa [InLoop, htu] using hin)
  | @slept u j p junk l hpos hcount hl =>
    by_cases htu : t = u
    · subst htu
      have hj : j = i := by simpa [InLoop] using hin
      exact .inr (by rw [hj])
    · exact .inl (by simpa [InLoop, htu] using hin)
  | @scheduled u j hpos htask =>
    by_cases htu : t = u
    · subst htu
      have hj : j = i := by simpa [InLoop] using hin
      exact .inl (.inl (hj ▸ hpos))
    · exact .inl (by simpa [InLoop, htu] using hin)
  | @sleptAgain u j hpos hup =>
    by_cases htu : t = u
    · subst htu
      have hj : j = i := by simpa [InLoop] using hin
      exact .inl (.inr (hj ▸ hpos))
    · exact .inl (by simpa [InLoop, htu] using hin)
  | initialised => exact .inl (hmove _ _ _ rfl (by simp [Position.id]) hin)
  | decremented => exact .inl (hmove _ _ _ rfl (by simp [Position.id]) hin)
  | incremented => exact .inl (hmove _ _ _ rfl (by simp [Position.id]) hin)
  | handed => exact .inl (hmove _ _ _ rfl (by simp [Position.id]) hin)
  | upFailed => exact .inl (hmove _ _ _ rfl (by simp [Position.id]) hin)
  | released => exact .inl (hmove _ _ _ rfl (by simp [Position.id]) hin)
  | left => exact .inl (hmove _ _ _ rfl (by simp [Position.id]) hin)

/-- The priority of a waiter is set when its thread goes to sleep. -/
theorem priority_of_effect (he : Effect s e s') (t : Tid) :
    (s'.waiter t).priority = (s.waiter t).priority ∨
      ∃ i p junk, e = .slept t i ∧ s.pos t = .checked (.down i p) ∧
        (s'.waiter t).priority = p.getD junk := by
  cases he with
  | @slept u j p junk l hpos hcount hl =>
    by_cases htu : t = u
    · subst htu
      exact .inr ⟨j, p, junk, rfl, hpos, by simp⟩
    · exact .inl (by simp [htu])
  | @handed u w j prio l l' hpos hl hne ho =>
    by_cases htw : t = w
    · subst htw
      exact .inl (by simp)
    · exact .inl (by simp [htw])
  | _ => exact .inl rfl

/-- The list and the queue after a step. -/
theorem Queued.list_step (h : Queued i mode τ s) (hmode : mode = FIFO ∨ mode = USER)
    (hw : WellFormed s) (he : Effect s e s') (hs : Steady i e) :
    ∃ l, (s'.sem_set i).wait_list = some l ∧
      SameClasses (wakeKey mode s'.waiter) l (queue i ((a, e) :: τ)) := by
  obtain ⟨l, hl, hclasses⟩ := h.list
  by_cases hi : e.id = some i
  case neg =>
    have hu := untouched_of_effect hw he hi
    refine ⟨l, by rw [hu.sem, hl], ?_⟩
    rw [queue_of_other hi]
    refine hclasses.congr_key fun t ht => wakeKey_congr ?_
    rw [hu.waiter t ((hw i l hl).2 t ht).1]
  cases he with
  | rejected | woken => cases hi
  | initialised | released => exact absurd (Option.some.inj hi) hs
  | checked | upFailed | scheduled | sleptAgain | left => exact ⟨l, hl, hclasses⟩
  | decremented | incremented =>
    obtain rfl := Option.some.inj hi
    exact ⟨l, by simpa using hl, hclasses⟩
  | @slept t j p junk l₁ hpos hcount hl₁ =>
    obtain rfl := Option.some.inj hi
    obtain rfl : l = l₁ := Option.some.inj (hl.symm.trans hl₁)
    have hqueue : queue j ((a, .slept t j) :: τ) = queue j τ ++ [t] := if_pos rfl
    refine ⟨l ++ [t], by simp, ?_⟩
    rw [hqueue]
    refine (hclasses.congr_key fun u hu => wakeKey_congr ?_).append [t]
    -- the thread that goes to sleep is not in the list yet
    have hut : u ≠ t := by
      rintro rfl
      exact hw.not_mem (not_inLoop_of_checked hpos) hl hu
    simp [hut]
  | @handed t w j prio l₁ l₂ hpos hl₁ hne ho =>
    obtain rfl := Option.some.inj hi
    obtain rfl : l = l₁ := Option.some.inj (hl.symm.trans hl₁)
    rw [h.ready.mode] at ho
    have hqueue : queue j ((a, .handed t w j) :: τ) = (queue j τ).filter fun u => u ≠ w :=
      if_pos rfl
    have hnodup : (w :: l₂).Nodup := (wakeOrder_perm ho).nodup_iff.2 (hw j l hl).1
    have hrest : ((w :: l₂).filter fun u => u ≠ w) = l₂ := by
      rw [List.filter_cons_of_neg (by simp), List.filter_eq_self]
      intro u hu
      have huw : u ≠ w := fun h => (List.nodup_cons.1 hnodup).1 (h ▸ hu)
      simpa using huw
    -- sorting keeps the order within each class of equal keys, and so does taking `w` out
    have hsorted := ((wakeOrder_sorted hmode ho).1.trans hclasses).filter fun u => u ≠ w
    rw [hrest] at hsorted
    refine ⟨l₂, by simp, ?_⟩
    rw [hqueue]
    refine hsorted.congr_key fun u hu => wakeKey_congr ?_
    by_cases huw : u = w
    · simp [huw]
    · simp [huw]

/-- Every step keeps the wait list and the queue of the history alike. -/
theorem Queued.step (h : Queued i mode τ s) (hmode : mode = FIFO ∨ mode = USER)
    (hw : WellFormed s) (hstep : step s a = some (e, s')) (hu : Unreleased i e) :
    Queued i mode ((a, e) :: τ) s' := by
  have he : Effect s e s' := effect_of_step ⟨a, hstep⟩
  refine ⟨h.ready.effect hw he hu, h.list_step hmode hw he (h.ready.steady he hu), ?_, ?_⟩
  · intro huser t p hpos
    rcases checked_of_effect he hpos with hpos | rfl
    · rw [callPriority_of_busy hstep (by rw [hpos]; exact nofun)]
      exact h.pending huser t p hpos
    · obtain ⟨c, rfl, hc⟩ := call_of_checked hstep
      exact callPriority_of_checked hc (h.ready.mode.trans huser)
  · intro huser t hin
    rcases inLoop_of_effect he hin with hin | rfl
    · have hbusy : s.pos t ≠ .idle := fun hidle => not_inLoop_of_idle hidle i hin
      rw [callPriority_of_busy hstep hbusy, ← h.asleep huser t hin]
      rcases priority_of_effect he t with hsame | ⟨j, p, junk, -, hpos, -⟩
      · exact hsame
      · exact absurd hin (not_inLoop_of_checked hpos i)
    · cases he with
      | @slept _ _ p junk l hpos hcount hl =>
        rw [callPriority_of_busy hstep (by rw [hpos]; exact nofun), h.pending huser t p hpos]
        simp

/-! ## Runs -/

/-- A step with its action and its event, which releases nothing. -/
def LoggedStep (i : SemaId) (s : State Tid) (r : Action Tid × Event Tid) (s' : State Tid) : Prop :=
  MySemaphore.step s r.1 = some (r.2, s') ∧ Unreleased i r.2

/-- The machine with the actions in its events. -/
def logged (s : State Tid) (a : Action Tid) : Option ((Action Tid × Event Tid) × State Tid) :=
  (MySemaphore.step s a).map fun r => ((a, r.1), r.2)

theorem loggedStep_of_logged {r : Action Tid × Event Tid}
    (h : StepBy (restrict logged fun _ r => Unreleased i r.2) s r s') : LoggedStep i s r s' := by
  obtain ⟨⟨a, ha⟩, hu⟩ := stepBy_restrict h
  obtain ⟨⟨e, s₁⟩, hstep, heq⟩ := Option.map_eq_some_iff.1 ha
  cases heq
  exact ⟨hstep, hu⟩

/-- The wait list is the queue of the history in every run without a release. -/
theorem queued_of_run (hstart : Started i k mode s₀) (hmode : mode = FIFO ∨ mode = USER)
    (hrun : Run (LoggedStep i) s₀ τ s) : Reachable s ∧ Queued i mode τ s := by
  refine hrun.invariant (fun τ s => Reachable s ∧ Queued i mode τ s)
    ⟨hstart.reachable, hstart.queued⟩ ?_
  rintro τ s ⟨a, e⟩ s' - ⟨hreach, hq⟩ ⟨hstep, hu⟩
  exact ⟨hreach.run (.step .start ⟨a, hstep⟩), hq.step hmode hreach.wellFormed hstep hu⟩

/-- From a successful init, in every run without a release, an up that finds waiters wakes the one
that comes first in the order of sleeping, in the mode `FIFO`, or the first of those with the least
priority, in the mode `USER`. The thread leaves the list with its waiter up, and runs again. -/
theorem up_wakes_in_order (hstart : Started i k mode s₀) (hmode : mode = FIFO ∨ mode = USER)
    (hrun : Run (LoggedStep i) s₀ τ s) {junk : Int} {prio : Tid → Int}
    (hpos : s.pos t = .checked (.up i))
    (hstep : step s (.commit t junk prio) = some (e, s'))
    (hwaiters : (s.sem_set i).wait_list ≠ some []) :
    ∃ w q₁ q₂, e = .handed t w i ∧ WokenUp i w s s' ∧ queue i τ = q₁ ++ w :: q₂ ∧
      (mode = FIFO → q₁ = []) ∧
      (mode = USER → (∀ u ∈ q₁, callPriority w τ < callPriority u τ) ∧
        ∀ u ∈ q₂, callPriority w τ ≤ callPriority u τ) := by
  obtain ⟨hreach, hq⟩ := queued_of_run hstart hmode hrun
  obtain ⟨l, hl, hclasses⟩ := hq.list
  have he : Effect s e s' := effect_of_step ⟨_, hstep⟩
  simp only [step, hpos, upCommit, hl, hq.ready.mode] at hstep
  cases l with
  | nil => exact absurd hl hwaiters
  | cons v l =>
    cases ho : wakeOrder mode prio s.waiter (v :: l) with
    | none =>
      rcases hmode with rfl | rfl <;> exact absurd ho (wakeOrder_ne_none (by simp))
    | some l' =>
      cases l' with
      | nil => exact absurd (wakeOrder_perm ho).length_eq (by simp)
      | cons w l' =>
        -- the list is not empty and has an order, so the up hands over to its first thread
        simp only [ho] at hstep
        cases hstep
        obtain ⟨hsame, hsorted⟩ := wakeOrder_sorted hmode ho
        obtain ⟨q₁, q₂, hqueue, hfirst, hleast⟩ := (hsame.trans hclasses).first hsorted
        refine ⟨w, q₁, q₂, rfl, wokenUp_of_effect he, hqueue, ?_, ?_⟩
        · rintro rfl
          refine List.eq_nil_iff_forall_not_mem.2 fun u hu => ?_
          exact absurd (hfirst u hu) (lt_irrefl _)
        · rintro rfl
          -- a waiter still has the priority with which it called
          have hkey : ∀ u ∈ queue i τ, wakeKey USER s.waiter u = callPriority u τ := by
            intro u hu
            rw [wakeKey, if_pos rfl]
            exact hq.asleep rfl u ((hreach.wellFormed i _ hl).2 u (hclasses.mem_iff.2 hu)).1
          have hw := hkey w (by simp [hqueue])
          refine ⟨fun u hu => ?_, fun u hu => ?_⟩
          · rw [← hw, ← hkey u (by simp [hqueue, hu])]
            exact hfirst u hu
          · rw [← hw, ← hkey u (by simp [hqueue, hu])]
            exact hleast u hu

/-- Four threads go to sleep, by a plain down and with the priorities 30, -5 and 0; the up wakes the
third. -/
theorem up_wakes_in_order_user :
    ∃ (s s' : State (Fin 5)), (s.sem_set 2).wait_list = some [1, 2, 3, 4] ∧
      StepBy step s (.handed 0 3 2) s' := by
  let l₀ : List (Action (Fin 5)) := [.call 0 (.init 2 0 USER), .commit 0 0 fun _ => 0]
  let r₀ := (perform step [] (boot (Fin 5)) l₀).get rfl
  let l : List (Action (Fin 5)) :=
    [.call 1 (.down 2), .commit 1 0 fun _ => 0,
      .call 2 (.down_userprio 2 30), .commit 2 0 fun _ => 0,
      .call 3 (.down_userprio 2 (-5)), .commit 3 0 fun _ => 0,
      .call 4 (.down_userprio 2 0), .commit 4 0 fun _ => 0,
      .call 0 (.up 2)]
  let r := (perform (restrict logged fun _ r => Unreleased 2 r.2) [] r₀.2 l).get rfl
  have hrun₀ : Run (StepBy step) (boot (Fin 5)) r₀.1 r₀.2 := run_of_get rfl
  have hstart : Started 2 0 USER r₀.2 := ⟨⟨_, hrun₀⟩, rfl, by decide⟩
  have hrun : Run (LoggedStep 2) r₀.2 r.1 r.2 := (run_of_get rfl).mono loggedStep_of_logged
  have hready : Ready 2 USER r.2 := (queued_of_run hstart (.inr rfl) hrun).2.ready
  obtain ⟨e, s', hcommit, -⟩ := upCommit_progresses_iff hready 0 fun _ => 0
  have hstep : step r.2 (.commit 0 0 fun _ => 0) = some (e, s') := hcommit
  obtain ⟨w, q₁, q₂, rfl, -, hqueue, -, huser⟩ :=
    up_wakes_in_order hstart (.inr rfl) hrun rfl hstep (by decide)
  obtain ⟨hbefore, hafter⟩ := huser rfl
  have hqueue : [1, 2, 3, 4] = q₁ ++ w :: q₂ := hqueue
  have hw : w = 3 := by
    rcases q₁ with _ | ⟨u₁, _ | ⟨u₂, _ | ⟨u₃, q₁⟩⟩⟩
    · cases hqueue
      exact absurd (hafter 3 (by simp)) (by decide)
    · cases hqueue
      exact absurd (hafter 3 (by simp)) (by decide)
    · cases hqueue
      rfl
    · have h₃ : 3 = u₃ := (List.cons.inj (List.cons.inj (List.cons.inj hqueue).2).2).1
      have hlt := hbefore 3 (by simp [h₃])
      have hnone : ∀ u, ¬ callPriority u r.1 < callPriority 3 r.1 := by decide
      exact absurd hlt (hnone w)
  exact ⟨r.2, s', rfl, _, hw ▸ hstep⟩

end EE516.MySemaphore
