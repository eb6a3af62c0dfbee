import EE516.LedTimers.Blink

/-!
# Stopping the LEDs

A press of the button stops the timers when it comes between two runs of the handler. Inside a run
`del_timer` finds the expired timer detached, and the handler then arms it: the LEDs go on blinking
although `timerActivated` is 0, and the next press initialises a pending timer.
-/

set_option autoImplicit false

namespace EE516.LedTimers.Blink

open EE516.Foundations

variable {HZ jiffies i n : Nat} {s s' : State} {e : Event} {a : Action} {h : Handler}
  {ret : Nat → Int} {led : Nat → Nat} {state : Int}

/-! ## The loops over the timers -/

theorem startOne_eq (hs : (s.timerFactor i).pending = false) :
    startOne HZ jiffies s i = s.setTimer i ⟨true, jiffies + (i + 1) * HZ / 10, i⟩ := by
  simp [startOne, State.init_timer, State.add_timer, State.setTimer, Timer.init_timer,
    Timer.add_timer, hs]

/-- The loop of `start_timer` over timers of which none is pending. -/
theorem start_loop (hs : ∀ i < n, (s.timerFactor i).pending = false) :
    (List.range n).foldl (startOne HZ jiffies) s = { s with
      timerFactor := fun i =>
        if i < n then ⟨true, jiffies + (i + 1) * HZ / 10, i⟩ else s.timerFactor i } := by
  induction n with
  | zero => simp
  | succ n ih =>
    have hn := hs n (Nat.lt_succ_self n)
    rw [List.range_succ, List.foldl_append, List.foldl_cons, List.foldl_nil,
      ih fun i hi => hs i (Nat.lt_succ_of_lt hi), startOne_eq (by simpa using hn), State.setTimer,
      ← update_prefix]

/-- The loop of `stop_timer`. -/
theorem stop_loop (n : Nat) (s : State) :
    (List.range n).foldl stopOne s = { s with
      timerFactor := fun i => if i < n then (s.timerFactor i).del_timer else s.timerFactor i
      led := fun i => if i < n then 0 else s.led i } := by
  induction n with
  | zero => simp
  | succ n ih =>
    rw [List.range_succ, List.foldl_append, List.foldl_cons, List.foldl_nil, ih,
      ← update_prefix, ← update_prefix _ (fun _ => 0)]
    simp [stopOne, State.setTimer]

/-! ## The invariant -/

/-- No press that stops the timers comes inside a run of the handler. -/
def Between (s : State) : Event → Prop
  | .button state => state = 0 → s.timerActivated ≠ 0 → s.handler = none
  | _ => True

instance (s : State) : ∀ e, Decidable (Between s e)
  | .button state => inferInstanceAs (Decidable (state = 0 → s.timerActivated ≠ 0 → _))
  | .expire _ => .isTrue trivial
  | .handle => .isTrue trivial

/-- As long as every stop comes between two runs of the handler. -/
structure Inv (s : State) : Prop where
  off : s.timerActivated = 0 → s.handler = none ∧
    ∀ i < NUM_LED, (s.timerFactor i).pending = false ∧ s.led i = 0
  data : s.timerActivated ≠ 0 → ∀ i < NUM_LED, (s.timerFactor i).data = i
  running : ∀ h, s.handler = some h → h.ptr < NUM_LED ∧ (s.timerFactor h.ptr).pending = false
  fine : s.misuse = []

/-- After the module was loaded every LED is off whose line was granted. -/
theorem inv_loaded (hload : ∀ i < NUM_LED, 0 ≤ ret i ∨ led i = 0) : Inv (loaded ret led) where
  off _ := by
    refine ⟨rfl, fun i hi => ⟨rfl, ?_⟩⟩
    simp only [loaded, init_gpios, setLeds_eq, if_pos hi]
    rcases hload i hi with hret | hled
    · simp [hret]
    · simp [hled]
  data h := absurd rfl h
  running _ h := nomatch h
  fine := rfl

/-- A timer that expires starts its handler. -/
theorem Inv.expire (h : Inv s) (hi : i < NUM_LED) (hp : (s.timerFactor i).pending = true) :
    Inv { s.setTimer i (s.timerFactor i).detach with
      handler := some ⟨(s.timerFactor i).data, .read⟩ } := by
  -- while the timers are stopped, none is pending and could expire
  have hon : s.timerActivated ≠ 0 := by
    intro hoff
    rw [((h.off hoff).2 i hi).1] at hp
    cases hp
  have hdata := h.data hon i hi
  refine ⟨fun hoff => absurd hoff hon, fun _ j hj => ?_, fun hd hhd => ?_, h.fine⟩
  · by_cases hji : j = i
    · subst hji
      simpa [State.setTimer, Timer.detach] using hdata
    · simpa [State.setTimer, hji] using h.data hon j hj
  · cases hhd
    simp [State.setTimer, Timer.detach, hdata, hi]

/-- Every instruction of a handler keeps the invariant. -/
theorem Inv.timer_timeout (hinv : Inv s) (hh : s.handler = some h) :
    Inv (timer_timeout HZ jiffies s h) := by
  obtain ⟨hptr, hp⟩ := hinv.running h hh
  have hon : s.timerActivated ≠ 0 := by
    intro hoff
    rw [(hinv.off hoff).1] at hh
    cases hh
  cases hpoint : h.point with
  | read =>
    simp only [Blink.timer_timeout, hpoint]
    rw [if_pos (show h.ptr < 4 from hptr)]
    refine ⟨fun hoff => absurd hoff hon, hinv.data, fun hd hhd => ?_, hinv.fine⟩
    cases hhd
    exact ⟨hptr, hp⟩
  | flip cur =>
    simp only [Blink.timer_timeout, hpoint]
    refine ⟨fun hoff => absurd hoff hon, hinv.data, fun hd hhd => ?_, hinv.fine⟩
    cases hhd
    exact ⟨hptr, hp⟩
  | setExpires =>
    simp only [Blink.timer_timeout, hpoint, State.setTimer]
    refine ⟨fun hoff => absurd hoff hon, fun _ j hj => ?_, fun hd hhd => ?_, hinv.fine⟩
    · by_cases hj' : j = h.ptr
      · subst hj'
        simpa using hinv.data hon _ hj
      · simpa [hj'] using hinv.data hon j hj
    · cases hhd
      exact ⟨hptr, by simpa using hp⟩
  | add =>
    -- the handler's own timer was detached, and nothing has armed it since
    simp only [Blink.timer_timeout, hpoint, State.add_timer, hp, State.setTimer]
    refine ⟨fun hoff => absurd hoff hon, fun _ j hj => ?_, nofun, hinv.fine⟩
    by_cases hj' : j = h.ptr
    · subst hj'
      simpa [Timer.add_timer] using hinv.data hon _ hj
    · simpa [hj'] using hinv.data hon j hj

/-- The state after a press that starts the timers. -/
theorem start_timer_eq (hs : ∀ i < NUM_LED, (s.timerFactor i).pending = false) :
    start_timer HZ jiffies s = { s with
      timerFactor := fun i =>
        if i < NUM_LED then ⟨true, jiffies + (i + 1) * HZ / 10, i⟩ else s.timerFactor i } :=
  start_loop hs

theorem stop_timer_eq (s : State) :
    stop_timer s = { s with
      timerFactor := fun i => if i < NUM_LED then (s.timerFactor i).del_timer else s.timerFactor i
      led := fun i => if i < NUM_LED then 0 else s.led i } :=
  stop_loop NUM_LED s

/-- A press that finds no handler running keeps the invariant. -/
theorem Inv.button_isr (h : Inv s) (hb : state = 0 → s.timerActivated ≠ 0 → s.handler = none) :
    Inv (button_isr HZ jiffies state s) := by
  unfold Blink.button_isr
  split
  case isFalse => exact h
  case isTrue hstate =>
    split
    case isTrue hoff =>
      obtain ⟨hnone, hidle⟩ := h.off hoff
      rw [start_timer_eq fun i hi => (hidle i hi).1]
      refine ⟨nofun, fun _ i hi => ?_, fun hd hhd => ?_, h.fine⟩
      · simp [hi]
      · rw [hnone] at hhd
        cases hhd
    case isFalse hon =>
      -- no handler is left that could arm its timer again
      have hnone := hb hstate hon
      rw [stop_timer_eq]
      refine ⟨fun _ => ⟨hnone, fun i hi => ?_⟩, fun h => absurd rfl h, fun hd hhd => ?_, h.fine⟩
      · simp [hi]
      · rw [hnone] at hhd
        cases hhd

/-- A step that meets the condition keeps the invariant. -/
theorem Inv.step (h : Inv s) (hs : step HZ s a = some (e, s')) (hb : Between s e) : Inv s' := by
  cases a with
  | expire i =>
    simp only [Blink.step] at hs
    split at hs
    case isTrue hi =>
      cases hs
      exact h.expire hi.1 hi.2.1
    case isFalse => cases hs
  | handle jiffies =>
    obtain ⟨hd, hhd, heq⟩ := Option.map_eq_some_iff.1 hs
    cases heq
    exact h.timer_timeout hhd
  | button state jiffies =>
    cases hs
    exact h.button_isr hb

/-! ## Runs -/

/-- While the timers are stopped and no handler runs, no timer is pending and every LED is off; and
no pending timer was ever initialised. -/
structure StopsReally (s : State) : Prop where
  off : s.timerActivated = 0 → s.handler = none →
    ∀ i < NUM_LED, (s.timerFactor i).pending = false ∧ s.led i = 0
  init : ∀ i, .initPending i ∉ s.misuse

/-- The invariant says that what was stopped stays off. -/
theorem Inv.stopsReally (h : Inv s) : StopsReally s where
  off hoff _ := (h.off hoff).2
  init i := by
    rw [h.fine]
    exact List.not_mem_nil

variable {τ : List Event}

/-- The invariant holds in every run whose presses come between the handlers. -/
theorem inv_run (hload : ∀ i < NUM_LED, 0 ≤ ret i ∨ led i = 0)
    (hrun : Run (StepBy (restrict (step HZ) Between)) (loaded ret led) τ s) : Inv s := by
  refine hrun.invariant (fun _ s => Inv s) (inv_loaded hload) ?_
  intro τ s e s' _ hinv he
  obtain ⟨⟨a, ha⟩, hb⟩ := stepBy_restrict he
  exact hinv.step ha hb

/-- The number of steps that a handler has still to take. -/
def HandlerPoint.rest : HandlerPoint → Nat
  | .read => 4
  | .flip _ => 3
  | .setExpires => 2
  | .add => 1

/-- A step of the handler before the last one leads to its next step. -/
theorem timer_timeout_next (HZ jiffies : Nat) (s : State) (hptr : h.ptr < NUM_LED)
    (hp : h.point ≠ .add) :
    ∃ p, (timer_timeout HZ jiffies s h).handler = some ⟨h.ptr, p⟩ ∧ h.point.rest = p.rest + 1 ∧
      (timer_timeout HZ jiffies s h).timerActivated = s.timerActivated ∧
      ∀ i, ((timer_timeout HZ jiffies s h).timerFactor i).pending = (s.timerFactor i).pending := by
  cases hpoint : h.point with
  | read =>
    have hlt : h.ptr < 4 := hptr
    refine ⟨.flip (s.led h.ptr), ?_⟩
    simp [timer_timeout, hpoint, hlt, HandlerPoint.rest]
  | flip cur =>
    refine ⟨.setExpires, ?_⟩
    simp [timer_timeout, hpoint, HandlerPoint.rest]
  | setExpires =>
    refine ⟨.add, ?_⟩
    simp only [timer_timeout, hpoint, HandlerPoint.rest, State.setTimer, true_and]
    intro i
    by_cases hi : i = h.ptr
    · subst hi
      simp
    · simp [hi]
  | add => exact absurd hpoint hp

/-- A handler that is not interrupted any more arms its timer. -/
theorem run_handler {s₀ : State} (hrun : Run (StepBy (step HZ)) s₀ τ s) (hh : s.handler = some h)
    (hptr : h.ptr < NUM_LED) (hp : (s.timerFactor h.ptr).pending = false) :
    ∃ τ' s', Run (StepBy (step HZ)) s₀ (τ' ++ τ) s' ∧ (∀ e ∈ τ', e = .handle) ∧
      s'.timerActivated = s.timerActivated ∧ s'.handler = none ∧
      (s'.timerFactor h.ptr).pending = true := by
  -- by induction on the steps that the handler has still to take
  induction hn : h.point.rest generalizing τ s h with
  | zero => cases hpoint : h.point <;> simp [hpoint, HandlerPoint.rest] at hn
  | succ n ih =>
    have hstep : step HZ s (.handle 0) = some (.handle, timer_timeout HZ 0 s h) := by
      simp [step, hh]
    by_cases hadd : h.point = .add
    · refine ⟨[.handle], _, .step hrun ⟨_, hstep⟩, by simp, ?_⟩
      simp [timer_timeout, hadd, State.add_timer, hp, State.setTimer, Timer.add_timer]
    · obtain ⟨p, hh', hrest, hact, hpend⟩ := timer_timeout_next HZ 0 s hptr hadd
      obtain ⟨τ', s', hrun', hall, hact', hnone, harmed⟩ :=
        ih (.step hrun ⟨_, hstep⟩) hh' hptr ((hpend _).trans hp) (show p.rest = n by omega)
      refine ⟨τ' ++ [.handle], s', by simpa using hrun', ?_, hact'.trans hact, hnone, harmed⟩
      simpa [or_imp, forall_and] using hall

/-- The machine with the condition takes steps of the machine without it. -/
theorem run_of_restrict (hrun : Run (StepBy (restrict (step HZ) Between)) (loaded ret led) τ s) :
    Run (StepBy (step HZ)) (loaded ret led) τ s :=
  hrun.mono fun he => (stepBy_restrict he).1

/-- A press that stops the timers inside a run of the handler does not stop them: when the handler
has run to its end, its timer is pending. -/
theorem not_stopsReally_after (hinv : Inv s) (hrun : Run (StepBy (step HZ)) (loaded ret led) τ s)
    (hon : s.timerActivated ≠ 0) (hh : s.handler = some h) :
    ∃ τ' s', Run (StepBy (step HZ)) (loaded ret led) (τ' ++ .button 0 :: τ) s' ∧
      (∀ e ∈ τ', e = .handle) ∧ ¬ StopsReally s' := by
  obtain ⟨hptr, hp⟩ := hinv.running h hh
  have hpress : button_isr HZ 0 0 s = { stop_timer s with timerActivated := 0 } := by
    simp [button_isr, hon]
  obtain ⟨τ', s', hrun', hall, hact, hnone, harmed⟩ :=
    run_handler (h := h) (.step hrun ⟨.button 0 0, rfl⟩)
      (by rw [hpress, stop_timer_eq]; exact hh) hptr
      (by rw [hpress, stop_timer_eq]; simp [hptr])
  refine ⟨τ', s', hrun', hall, fun hstops => ?_⟩
  rw [hpress] at hact
  have hidle := (hstops.off hact hnone h.ptr hptr).1
  rw [harmed] at hidle
  cases hidle

/-- Whatever the timers and the button do, as long as no press that stops the timers comes inside a
run of the handler: stopping stops. One such press is enough to break it. -/
theorem stopping_stops (hload : ∀ i < NUM_LED, 0 ≤ ret i ∨ led i = 0)
    (hrun : Run (StepBy (restrict (step HZ) Between)) (loaded ret led) τ s) :
    StopsReally s ∧ (s.timerActivated ≠ 0 → s.handler ≠ none →
      ∃ τ' s', Run (StepBy (step HZ)) (loaded ret led) (τ' ++ .button 0 :: τ) s' ∧
        (∀ e ∈ τ', e = .handle) ∧ ¬ StopsReally s') := by
  have hinv := inv_run hload hrun
  refine ⟨hinv.stopsReally, fun hon hne => ?_⟩
  obtain ⟨h, hh⟩ := Option.ne_none_iff_exists'.1 hne
  exact not_stopsReally_after hinv (run_of_restrict hrun) hon hh

/-- A press, an expiry of the first timer with its handler, and a second press. -/
def pressTwice : List Action :=
  [.button 0 0, .expire 0, .handle 10, .handle 10, .handle 10, .handle 10, .button 0 12]

theorem stopping_stops_twice : ∃ s : State, s.timerActivated = 0 ∧ (s.timerFactor 0).expires = 20 ∧
    StopsReally s := by
  let r := (perform (restrict (step 100) Between) [] (loaded (fun _ => 0) fun _ => 1)
    pressTwice).get (by decide +kernel)
  have hoff : r.2.timerActivated = 0 := by decide +kernel
  have hexpires : (r.2.timerFactor 0).expires = 20 := by decide +kernel
  exact ⟨r.2, hoff, hexpires, (stopping_stops (fun _ _ => .inl (Int.le_refl 0)) (run_of_get _)).1⟩

/-- The second press comes while the handler of the first timer runs. -/
def pressInside : List Action :=
  [.button 0 0, .expire 0, .button 0 10, .handle 10, .handle 10, .handle 10, .handle 10]

/-- The first timer is pending, although the timers were stopped. -/
theorem stopped_timer_pending : ¬ ∀ (HZ : Nat) (ret : Nat → Int) (led : Nat → Nat)
    (τ : List Event) (s : State), (∀ i < NUM_LED, 0 ≤ ret i) →
      Run (StepBy (step HZ)) (loaded ret led) τ s → StopsReally s := by
  intro hall
  let r := (perform (step 100) [] (loaded (fun _ => 0) fun _ => 0) pressInside).get
    (by decide +kernel)
  have hoff : r.2.timerActivated = 0 := by decide +kernel
  have hnone : r.2.handler = none := by decide +kernel
  have hpending : (r.2.timerFactor 0).pending = true := by decide +kernel
  have hrun : Run (StepBy (step 100)) (loaded (fun _ => 0) fun _ => 0) r.1 r.2 := run_of_get _
  have hstops := hall 100 (fun _ => 0) (fun _ => 0) r.1 r.2 (fun _ _ => Int.le_refl 0) hrun
  have hidle := (hstops.off hoff hnone 0 (by decide)).1
  rw [hpending] at hidle
  cases hidle

end EE516.LedTimers.Blink
