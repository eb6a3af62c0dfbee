import EE516.MySemaphore.Steps

/-!
# Calls on a semaphore that is not active

The calls refuse a semaphore whose state is `INACTIVE`. A released semaphore has that state; one
that was never initialised has the state 0 of static storage, and there the guards let every call
pass (`inactive_refused_iff`).
-/

set_option autoImplicit false

namespace EE516.MySemaphore

open EE516.Foundations

universe u

variable {Tid : Type u}

/-- What happened to a semaphore last. -/
inductive Phase where
  | never
  | active
  | released
  deriving DecidableEq, Repr

/-- Between a successful init and the next successful release a semaphore is active. -/
def phase (i : SemaId) : List (Event Tid) → Phase
  | [] => .never
  | .initialised _ j :: τ => if j = i then .active else phase i τ
  | .released _ j :: τ => if j = i then .released else phase i τ
  | _ :: τ => phase i τ

/-- The state field in each phase. -/
def Phase.state : Phase → Int
  | .never => 0
  | .active => ACTIVE
  | .released => INACTIVE

/-- The identifier that a call is given. -/
def Call.sema_id : Call → Int
  | .init sema_id _ _ => sema_id
  | .down sema_id => sema_id
  | .down_userprio sema_id _ => sema_id
  | .up sema_id => sema_id
  | .release sema_id => sema_id

/-- The call is no init. -/
def Call.NoInit : Call → Prop
  | .init _ _ _ => False
  | _ => True

/-- The checks of the call look at a wait list that was not initialised. -/
def ReadsUninitialised (set : SemaId → Mysemaphore Tid) : Call → Prop
  | .release sema_id =>
    ∃ i, validId sema_id = some i ∧ (set i).state ≠ INACTIVE ∧ (set i).wait_list = none
  | _ => False

variable {i : SemaId} {s s' : State Tid} {e : Event Tid} {τ : List (Event Tid)} {c : Call} {t : Tid}

/-- What the fields of a semaphore say about its phase. -/
structure Phased (i : SemaId) (τ : List (Event Tid)) (s : State Tid) : Prop where
  state : (s.sem_set i).state = (phase i τ).state
  list : (s.sem_set i).wait_list = none ↔ phase i τ = .never
  releasing : ∀ t, s.pos t = .checked (.release i) → phase i τ ≠ .never

theorem phase_of_other (h : e.id ≠ some i) : phase i (e :: τ) = phase i τ := by
  cases e with
  | initialised t j => exact if_neg fun hj => h (congrArg some hj)
  | released t j => exact if_neg fun hj => h (congrArg some hj)
  | _ => rfl

/-- A release passes its checks on an empty list only, and that was initialised. -/
theorem list_ne_none_of_check (h : check s.sem_set c = some (.release i)) :
    (s.sem_set i).wait_list ≠ none := by
  cases passes_of_check _ h with
  | release _ _ hlist =>
    rw [hlist]
    exact nofun

theorem phased_boot (i : SemaId) : Phased i [] (boot Tid) :=
  ⟨rfl, iff_of_true rfl rfl, nofun⟩

theorem Phased.other (h : Phased i τ s) (hu : Untouched i s s') (hi : e.id ≠ some i) :
    Phased i (e :: τ) s' := by
  refine ⟨?_, ?_, fun t ht => ?_⟩
  · rw [hu.sem, phase_of_other hi, h.state]
  · rw [hu.sem, phase_of_other hi, h.list]
  · rw [phase_of_other hi]
    exact h.releasing t ((hu.checked t _ rfl).1 ht)

/-- A step that keeps the state and the kind of the list, and makes no thread a releaser. -/
theorem Phased.keep (h : Phased i τ s) (hphase : phase i (e :: τ) = phase i τ)
    (hstate : (s'.sem_set i).state = (s.sem_set i).state)
    (hlist : (s'.sem_set i).wait_list = none ↔ (s.sem_set i).wait_list = none)
    (hreleasing : ∀ t, s'.pos t = .checked (.release i) → phase i τ ≠ .never) :
    Phased i (e :: τ) s' := by
  refine ⟨?_, ?_, ?_⟩
  · rw [hstate, hphase, h.state]
  · rw [hlist, hphase, h.list]
  · rw [hphase]
    exact hreleasing

section Step

variable [DecidableEq Tid]

/-- Every step keeps the state field in step with the history. -/
theorem Phased.effect (h : Phased i τ s) (hw : WellFormed s) (he : Effect s e s') :
    Phased i (e :: τ) s' := by
  by_cases hi : e.id = some i
  case neg => exact h.other (untouched_of_effect hw he hi) hi
  -- a release came past its checks, which want a wait list, after an init
  have hreleasing : ∀ t, s'.pos t = .checked (.release i) → phase i τ ≠ .never := by
    intro t ht
    rcases checked_of_effect he ht with ht | rfl
    · exact h.releasing t ht
    · cases he with
      | checked _ hc => exact fun hnever => list_ne_none_of_check hc (h.list.2 hnever)
  cases he with
  | rejected | woken => cases hi
  | checked => exact h.keep rfl rfl Iff.rfl hreleasing
  | @initialised u j v m hpos =>
    obtain rfl := Option.some.inj hi
    have hphase : phase j (.initialised u j :: τ) = .active := if_pos rfl
    refine ⟨?_, ?_, fun _ _ => ?_⟩
    · rw [hphase]
      simp [Phase.state]
    · rw [hphase]
      simp
    · rw [hphase]
      exact nofun
  | @released u j hpos =>
    obtain rfl := Option.some.inj hi
    have hphase : phase j (.released u j :: τ) = .released := if_pos rfl
    have hlist : (s.sem_set j).wait_list ≠ none := fun hnone =>
      h.releasing u hpos (h.list.1 hnone)
    refine ⟨?_, ?_, fun _ _ => ?_⟩
    · rw [hphase]
      simp [Phase.state]
    · rw [hphase]
      simpa using hlist
    · rw [hphase]
      exact nofun
  | decremented | incremented =>
    obtain rfl := Option.some.inj hi
    exact h.keep rfl (by simp) (by simp) hreleasing
  | @slept u j p junk l hpos hcount hl =>
    obtain rfl := Option.some.inj hi
    exact h.keep rfl (by simp) (by simp [hl]) hreleasing
  | @handed u w j prio l l' hpos hl hne ho =>
    obtain rfl := Option.some.inj hi
    exact h.keep rfl (by simp) (by simp [hl]) hreleasing
  | upFailed | scheduled | sleptAgain | left => exact h.keep rfl rfl Iff.rfl hreleasing

/-- The state field tells the phase in every run from boot. -/
theorem phased_of_run (hrun : Run (StepBy step) (boot Tid) τ s) (i : SemaId) : Phased i τ s := by
  refine hrun.invariant (fun τ s => Phased i τ s) (phased_boot i) ?_
  intro τ s e s' hrun h he
  exact h.effect (Reachable.wellFormed ⟨τ, hrun⟩) (effect_of_step he)

/-! ## Calls outside of the active phase -/

/-- The call returns -1 and changes nothing, and its checks look at no uninitialised list. -/
def Refused (s : State Tid) (t : Tid) (c : Call) : Prop :=
  step s (.call t c) = some (.rejected t c, s) ∧ ¬ ReadsUninitialised s.sem_set c

/-- A call is refused exactly if its checks fail. -/
theorem rejected_iff (hidle : s.pos t = .idle) :
    step s (.call t c) = some (.rejected t c, s) ↔ check s.sem_set c = none := by
  simp only [step, if_pos hidle]
  cases check s.sem_set c with
  | none => simp
  | some k => simp

/-- An identifier out of range is refused by every call. -/
theorem refused_of_validId (hidle : s.pos t = .idle) (hid : validId c.sema_id = none) :
    Refused s t c := by
  refine ⟨(rejected_iff hidle).2 ?_, ?_⟩
  · cases c <;> simp_all [check, Call.sema_id, sys_mysema_init, sys_mysema_down,
      sys_mysema_down_userprio, sys_mysema_up, sys_mysema_release]
  · cases c with
    | release sema_id =>
      rintro ⟨i, hi, -⟩
      cases hid.symm.trans hi
    | _ => exact id

/-- A semaphore in the state `INACTIVE` is refused by every call but an init. -/
theorem refused_of_inactive (hidle : s.pos t = .idle) (hc : c.NoInit)
    (hid : validId c.sema_id = some i) (hstate : (s.sem_set i).state = INACTIVE) :
    Refused s t c := by
  refine ⟨(rejected_iff hidle).2 ?_, ?_⟩
  · cases c with
    | init => exact absurd hc id
    | _ => simp_all [check, Call.sema_id, sys_mysema_down, sys_mysema_down_userprio, sys_mysema_up,
        sys_mysema_release]
  · cases c with
    | release sema_id =>
      rintro ⟨j, hj, hne, -⟩
      obtain rfl := Option.some.inj (hid.symm.trans hj)
      exact hne hstate
    | _ => exact id

/-- A semaphore in another state is refused by no call but an init, unless a release looks at its
uninitialised list. -/
theorem not_refused_of_uninitialised (hidle : s.pos t = .idle) (hc : c.NoInit)
    (hid : validId c.sema_id = some i) (hstate : (s.sem_set i).state ≠ INACTIVE)
    (hlist : (s.sem_set i).wait_list = none) : ¬ Refused s t c := by
  rintro ⟨hrej, hread⟩
  rw [rejected_iff hidle] at hrej
  cases c with
  | init => exact hc
  | down sema_id =>
    simp only [check, sys_mysema_down, sys_mysema_down_userprio, show validId sema_id = some i from
      hid, if_neg hstate] at hrej
    repeat' split at hrej
    all_goals cases hrej
  | down_userprio sema_id priority =>
    simp only [check, sys_mysema_down_userprio, show validId sema_id = some i from hid,
      if_neg hstate] at hrej
    split at hrej <;> cases hrej
  | up sema_id =>
    simp only [check, sys_mysema_up, show validId sema_id = some i from hid, if_neg hstate] at hrej
    cases hrej
  | release sema_id => exact hread ⟨i, hid, hstate, hlist⟩

/-- In every run from boot, a down, an up or a release on an identifier that is out of range or on a
semaphore that is not active is refused if and only if the semaphore, when there is one, was
initialised before. -/
theorem inactive_refused_iff (hrun : Run (StepBy step) (boot Tid) τ s) (hidle : s.pos t = .idle)
    (hc : c.NoInit) (hinactive : ∀ i, validId c.sema_id = some i → phase i τ ≠ .active) :
    Refused s t c ↔ ∀ i, validId c.sema_id = some i → phase i τ = .released := by
  cases hid : validId c.sema_id with
  | none => exact iff_of_true (refused_of_validId hidle hid) nofun
  | some i =>
    have hph := phased_of_run hrun i
    have hne := hinactive i hid
    cases hp : phase i τ with
    | active => exact absurd hp hne
    | released =>
      refine iff_of_true (refused_of_inactive hidle hc hid (hph.state.trans (by rw [hp]; rfl))) ?_
      intro j hj
      rw [← Option.some.inj hj, hp]
    | never =>
      refine iff_of_false (not_refused_of_uninitialised hidle hc hid ?_ (hph.list.2 hp)) ?_
      · rw [hph.state, hp]
        decide
      · intro hall
        cases hp.symm.trans (hall i rfl)

/-- A down on a semaphore that was released is refused. -/
theorem inactive_refused_released :
    ∃ (s : State (Fin 2)) (τ : List (Event (Fin 2))), Run (StepBy step) (boot (Fin 2)) τ s ∧
      Refused s 1 (.down 2) := by
  let l : List (Action (Fin 2)) :=
    [.call 0 (.init 2 0 FIFO), .commit 0 0 fun _ => 0, .call 0 (.release 2), .commit 0 0 fun _ => 0]
  let r := (perform step [] (boot (Fin 2)) l).get rfl
  have hrun : Run (StepBy step) (boot (Fin 2)) r.1 r.2 := run_of_get rfl
  have hphase : ∀ i, validId 2 = some i → phase i r.1 = .released := by
    intro i hi
    obtain rfl : 2 = i := Option.some.inj hi
    rfl
  have hinactive : ∀ i, validId (Call.down 2).sema_id = some i → phase i r.1 ≠ .active := by
    intro i hi
    rw [hphase i hi]
    decide
  have hc : (Call.down 2).NoInit := trivial
  exact ⟨r.2, r.1, hrun, (inactive_refused_iff hrun rfl hc hinactive).2 hphase⟩

/-- An up on a semaphore that was never initialised passes the checks. -/
theorem up_passes_at_boot :
    ¬ ∀ (s : State (Fin 1)) (τ : List (Event (Fin 1))) (t : Fin 1) (c : Call),
      Run (StepBy step) (boot (Fin 1)) τ s → s.pos t = .idle → c.NoInit →
      (∀ i, validId c.sema_id = some i → phase i τ ≠ .active) → Refused s t c := by
  intro h
  have hrefused := h (boot (Fin 1)) [] 0 (.up 0) .start rfl trivial fun i _ => nofun
  cases (rejected_iff rfl).1 hrefused.1

end Step

end EE516.MySemaphore
