import Mathlib.Algebra.BigOperators.Group.Finset.Piecewise
import Mathlib.Algebra.Order.BigOperators.Group.Finset
import EE516.LinkedList.Contents

/-!
# The readers and writers of the linked list

`project5/task1/reader_writer_skel.c`: readers and writers that share one open device. The driver
serves a call under its semaphore, so a round of a thread is one step; the rounds come in any order.
What the threads print tells exactly which values are in the list.
-/

set_option autoImplicit false

namespace EE516.LinkedList

open EE516.Foundations

universe u

/-- The rounds of each thread. -/
def NUMLOOP : Nat := 100

/-- The byte that a round draws from `rand`. -/
def getNanoTimeRandomNumber (range rand : Nat) : Nat := rand % range

/-- A line that a thread prints; `read` has the byte that the driver left in `buf[1]`. -/
inductive Line where
  | readFailed (v : Int)
  | read (v : Option Int)
  | writeFailed
  | wrote (v : Int)
  deriving DecidableEq

/-- The driver, whether the device is open, and the loop counters of the threads. -/
structure Clients (R W : Type u) where
  driver : State
  opened : Bool
  reads : R → Nat
  writes : W → Nat

/-- The device is open, and no thread has begun. -/
def begin (R W : Type u) : Clients R W := ⟨start, true, fun _ => 0, fun _ => 0⟩

/-- Whose round comes next, with what it draws; `kzalloc` returns `addr`. -/
inductive Turn (R W : Type u) where
  | reader (r : R) (rand : Nat)
  | writer (w : W) (rand : Nat) (random : UInt32) (addr : Addr)
  | close

/-- A round with the byte that the thread asked for and its line. -/
inductive Round (R W : Type u) where
  | reader (r : R) (buf0 : Int8) (line : Line)
  | writer (w : W) (line : Line)
  | closed

/-- A round of a reader: the call, and the line that tells its result. -/
def read_func (s : State) (buf0 : Int8) : Option (Line × State) := do
  let (reply, s') ← dummy_read s buf0 4
  some (if reply.ret = -1 then .readFailed buf0.toInt else .read (reply.buffer1.map Int8.toInt), s')

/-- A round of a writer: the call, and the line that tells its result. -/
def write_func (s : State) (buf0 : Int8) (random : UInt32) (addr : Addr) :
    Option (Line × State) := do
  let (reply, s') ← dummy_write s buf0 4 random addr
  some (if reply.ret = -1 then .writeFailed else .wrote buf0.toInt, s')

variable {R W : Type u} [DecidableEq R] [DecidableEq W] [Fintype R] [Fintype W]

/-- A step of the threads, or the close of `main` after it has joined them. -/
def clientStep (s : Clients R W) : Turn R W → Option (Round R W × Clients R W)
  | .reader r rand =>
    let buf0 := Int8.ofInt (getNanoTimeRandomNumber 10 rand)
    if s.opened = true ∧ s.reads r < NUMLOOP then
      (read_func s.driver buf0).map fun q =>
        (.reader r buf0 q.1,
          { s with driver := q.2, reads := Function.update s.reads r (s.reads r + 1) })
    else none
  | .writer w rand random addr =>
    let buf0 := Int8.ofInt (getNanoTimeRandomNumber 10 rand)
    if s.opened = true ∧ s.writes w < NUMLOOP ∧ s.driver.heap addr = none then
      (write_func s.driver buf0 random addr).map fun q =>
        (.writer w q.1,
          { s with driver := q.2, writes := Function.update s.writes w (s.writes w + 1) })
    else none
  | .close =>
    if s.opened = true ∧ (∀ r, s.reads r = NUMLOOP) ∧ ∀ w, s.writes w = NUMLOOP then
      (dummy_release s.driver).map fun q => (.closed, { s with driver := q.2, opened := false })
    else none

/-! ## Reading the lines -/

omit [DecidableEq R] [DecidableEq W] [Fintype R] [Fintype W]

/-- The line tells that the value was written. -/
def Round.wrote (v : Int) : Round R W → Bool
  | .writer _ (.wrote x) => x = v
  | _ => false

/-- The line tells that the value was read, which takes it out. -/
def Round.took (v : Int) : Round R W → Bool
  | .reader _ _ (.read (some x)) => x = v
  | _ => false

/-- How many nodes with the value the lines tell of. -/
def Tells (τ : List (Round R W)) (v : Int) (n : Nat) : Prop :=
  n + τ.countP (Round.took v) = τ.countP (Round.wrote v)

/-- A reader gets the value that it asked for if it was written more often than read up to then, and
no value else; a writer has written a digit. -/
def Truthful : List (Round R W) → Prop
  | [] => True
  | .reader _ buf0 line :: τ =>
    Truthful τ ∧ ∃ n, Tells τ buf0.toInt n ∧
      line = if n = 0 then .readFailed buf0.toInt else .read (some buf0.toInt)
  | .writer _ line :: τ => Truthful τ ∧ ∃ v, (0 ≤ v ∧ v ≤ 9) ∧ line = .wrote v
  | .closed :: τ => Truthful τ

/-! ## Rounds -/

variable {s s' : Clients R W} {d : State} {l : Nodes} {τ : List (Round R W)} {e : Round R W}

/-- What a client draws is a digit. -/
theorem drawn_digit (rand : Nat) :
    0 ≤ (Int8.ofInt (getNanoTimeRandomNumber 10 rand)).toInt ∧
      (Int8.ofInt (getNanoTimeRandomNumber 10 rand)).toInt ≤ 9 := by
  have hlt : getNanoTimeRandomNumber 10 rand < 10 := Nat.mod_lt _ (by decide)
  rw [Int8.toInt_ofInt_of_le (by omega) (by omega)]
  omega

/-- The number of nodes with the value. -/
def nodesWith (l : Nodes) (v : Int) : Nat := (l.map Prod.snd).count v

/-- A read takes a node with the value out if there is one. -/
theorem Holds.read_func (h : Holds d l) (hfew : d.size < 2 ^ 31) {buf0 : Int8}
    (hdigit : 0 ≤ buf0.toInt) :
    ∃ d' l', read_func d buf0 = some (if nodesWith l buf0.toInt = 0 then .readFailed buf0.toInt
        else .read (some buf0.toInt), d') ∧ Holds d' l' ∧ l'.length ≤ l.length ∧
      ∀ v, nodesWith l' v + (if v = buf0.toInt ∧ nodesWith l v ≠ 0 then 1 else 0) =
        nodesWith l v := by
  obtain ⟨reply, d', l', hrun, h', hserves⟩ := h.serves hfew (c := .read buf0 4) trivial
  rw [Call.run] at hrun
  rw [LinkedList.read_func, hrun]
  cases hserves with
  | @deleted l₁ l₂ a _ _ _ hlength hnone =>
    have hpos : nodesWith (l₁ ++ (a, buf0.toInt) :: l₂) buf0.toInt ≠ 0 := by
      simp [nodesWith]
    have hne : buf0.toInt ≠ -1 := by omega
    refine ⟨d', _, by simp [hpos, hne], h', by simp, fun v => ?_⟩
    by_cases hv : v = buf0.toInt
    · subst hv
      rw [if_pos ⟨rfl, hpos⟩]
      simp only [nodesWith, List.map_append, List.map_cons, List.count_append, List.count_cons_self]
      omega
    · rw [if_neg fun h => hv h.1]
      simp [nodesWith, Ne.symm hv]
  | missed hlength hnone =>
    have hzero : nodesWith l buf0.toInt = 0 := by
      refine List.count_eq_zero.2 fun hmem => ?_
      obtain ⟨c, hc, hv⟩ := List.mem_map.1 hmem
      exact hnone c hc hv
    refine ⟨d, l, by simp [hzero], h, le_refl _, fun v => ?_⟩
    rw [if_neg]
    · rfl
    · rintro ⟨rfl, hne⟩
      exact hne hzero
  | short hlength => exact absurd hlength (by decide)

/-- A write of a digit adds a node. -/
theorem Holds.write_func (h : Holds d l) (hroom : d.size + 1 < 2 ^ 31) {buf0 : Int8}
    (hdigit : 0 ≤ buf0.toInt ∧ buf0.toInt ≤ 9) {addr : Addr} (haddr : d.heap addr = none)
    (random : UInt32) :
    ∃ d' l', write_func d buf0 random addr = some (.wrote buf0.toInt, d') ∧ Holds d' l' ∧
      l'.length = l.length + 1 ∧
      ∀ v, nodesWith l' v = nodesWith l v + if buf0.toInt = v then 1 else 0 := by
  obtain ⟨reply, d', l', hrun, h', hserves⟩ := h.serves (by omega) (c := .write buf0 4 random addr)
    fun _ => ⟨haddr, hroom⟩
  rw [Call.run] at hrun
  rw [LinkedList.write_func, hrun]
  cases hserves with
  | @wrote l₁ l₂ =>
    refine ⟨d', _, rfl, h', by simp; omega, fun v => ?_⟩
    simp only [nodesWith, List.map_append, List.map_cons, List.count_append, List.count_cons,
      beq_iff_eq]
    omega
  | refused hrefused => exact absurd ⟨by decide, hdigit⟩ hrefused

variable [Fintype W]

/-- What holds in every state: the list has the nodes that the lines tell of, and no more than the
writers have written. -/
structure Served (τ : List (Round R W)) (s : Clients R W) : Prop where
  truthful : Truthful τ
  list : ∃ l, Holds s.driver l ∧ l.length ≤ ∑ w, s.writes w ∧
    (s.opened = true → ∀ v, Tells τ v (nodesWith l v))
  writes : ∀ w, s.writes w ≤ NUMLOOP
  closed : s.opened = false → s.driver = start

theorem served_begin : Served [] (begin R W) where
  truthful := trivial
  list := ⟨[], holds_start, by simp [begin], fun _ _ => rfl⟩
  writes w := Nat.zero_le _
  closed h := by cases h

/-- The writers cannot fill the list. -/
theorem Served.few (h : Served τ s) (hcard : Fintype.card W * NUMLOOP < 2 ^ 31) {l : Nodes}
    (hl : l.length ≤ ∑ w, s.writes w) : l.length < 2 ^ 31 := by
  have hsum : ∑ w, s.writes w ≤ Fintype.card W * NUMLOOP := by
    simpa using Finset.sum_le_card_nsmul Finset.univ s.writes NUMLOOP fun w _ => h.writes w
  omega

theorem sum_writes [DecidableEq W] (s : Clients R W) (w : W) :
    ∑ u, Function.update s.writes w (s.writes w + 1) u = ∑ u, s.writes u + 1 := by
  rw [Finset.sum_update_of_mem (Finset.mem_univ w), ← Finset.add_sum_erase _ _ (Finset.mem_univ w),
    ← Finset.sdiff_singleton_eq_erase]
  omega

variable [DecidableEq R] [DecidableEq W] [Fintype R]

/-- A round of a reader is answered truthfully. -/
theorem Served.reader (h : Served τ s) (hcard : Fintype.card W * NUMLOOP < 2 ^ 31) {r : R}
    (rand : Nat) (hopened : s.opened = true) (hround : s.reads r < NUMLOOP) :
    ∃ e s', clientStep s (.reader r rand) = some (e, s') ∧ Served (e :: τ) s' := by
  obtain ⟨l, hl, hlength, htells⟩ := h.list
  have hdigit := drawn_digit rand
  obtain ⟨buf0, hbuf0⟩ : ∃ b, Int8.ofInt (getNanoTimeRandomNumber 10 rand) = b := ⟨_, rfl⟩
  rw [hbuf0] at hdigit
  obtain ⟨d', l', hread, hl', hless, hcount⟩ :=
    hl.read_func (hl.size ▸ h.few hcard hlength) hdigit.1
  simp only [clientStep, hbuf0, if_pos (And.intro hopened hround), hread]
  refine ⟨_, _, rfl, ⟨h.truthful, _, htells hopened buf0.toInt, rfl⟩,
    ⟨l', hl', hless.trans hlength, fun _ v => ?_⟩, h.writes, fun hclosed => ?_⟩
  · have hv := htells hopened v
    have hcountv := hcount v
    simp only [Tells, List.countP_cons, Round.took, Round.wrote] at hv ⊢
    by_cases hzero : nodesWith l buf0.toInt = 0
    · rw [if_neg fun hn => hn.2 (hn.1 ▸ hzero)] at hcountv
      simp only [if_pos hzero]
      simpa [← hcountv] using hv
    · simp only [if_neg hzero, decide_eq_true_eq]
      by_cases hsame : buf0.toInt = v
      · rw [if_pos ⟨hsame.symm, hsame ▸ hzero⟩] at hcountv
        simp only [hsame, if_true, Bool.false_eq_true, if_false]
        omega
      · rw [if_neg fun hn => hsame hn.1.symm] at hcountv
        simp only [hsame, Bool.false_eq_true, if_false]
        omega
  · rw [hopened] at hclosed
    cases hclosed

/-- A round of a writer is answered truthfully. -/
theorem Served.writer (h : Served τ s) (hcard : Fintype.card W * NUMLOOP < 2 ^ 31) {w : W}
    (rand : Nat) (random : UInt32) {addr : Addr} (hopened : s.opened = true)
    (hround : s.writes w < NUMLOOP) (haddr : s.driver.heap addr = none) :
    ∃ e s', clientStep s (.writer w rand random addr) = some (e, s') ∧ Served (e :: τ) s' := by
  obtain ⟨l, hl, hlength, htells⟩ := h.list
  have hdigit := drawn_digit rand
  obtain ⟨buf0, hbuf0⟩ : ∃ b, Int8.ofInt (getNanoTimeRandomNumber 10 rand) = b := ⟨_, rfl⟩
  rw [hbuf0] at hdigit
  -- the rounds of all writers bound the size of the list
  have hwrites : ∀ u, Function.update s.writes w (s.writes w + 1) u ≤ NUMLOOP := by
    intro u
    by_cases hu : u = w
    · subst hu
      rw [Function.update_self]
      exact hround
    · simpa [hu] using h.writes u
  have hsum := sum_writes s w
  have hroom : s.driver.size + 1 < 2 ^ 31 := by
    have hle : ∑ u, Function.update s.writes w (s.writes w + 1) u ≤ Fintype.card W * NUMLOOP := by
      simpa using Finset.sum_le_card_nsmul Finset.univ _ NUMLOOP fun u _ => hwrites u
    have hsize := hl.size
    omega
  obtain ⟨d', l', hwrite, hl', hmore, hcount⟩ := hl.write_func hroom hdigit haddr random
  simp only [clientStep, hbuf0, if_pos (And.intro hopened (And.intro hround haddr)), hwrite]
  refine ⟨_, _, rfl, ⟨h.truthful, _, hdigit, rfl⟩, ⟨l', hl', ?_, fun _ v => ?_⟩, hwrites,
    fun hclosed => ?_⟩
  · show l'.length ≤ ∑ u, Function.update s.writes w (s.writes w + 1) u
    omega
  · have hv := htells hopened v
    have hcountv := hcount v
    simp only [Tells, List.countP_cons, Round.took, Round.wrote, decide_eq_true_eq,
      Bool.false_eq_true, if_false] at hv ⊢
    omega
  · rw [hopened] at hclosed
    cases hclosed

/-- The close of the device frees every node. -/
theorem Served.close (h : Served τ s) (hopened : s.opened = true)
    (hreads : ∀ r, s.reads r = NUMLOOP) (hwrites : ∀ w, s.writes w = NUMLOOP) :
    ∃ e s', clientStep s .close = some (e, s') ∧ Served (e :: τ) s' := by
  obtain ⟨l, hl, hlength, htells⟩ := h.list
  rw [clientStep, if_pos ⟨hopened, hreads, hwrites⟩, dummy_release, hl.release]
  refine ⟨_, _, rfl, h.truthful, ⟨[], holds_start, Nat.zero_le _, fun hopen => ?_⟩, h.writes,
    fun _ => rfl⟩
  cases hopen

/-! ## Runs -/

/-- In every run of the clients every round was answered truthfully. -/
theorem served_of_run (hcard : Fintype.card W * NUMLOOP < 2 ^ 31)
    (hrun : Run (StepBy clientStep) (begin R W) τ s) : Served τ s := by
  refine hrun.invariant (fun τ s => Served τ s) served_begin ?_
  rintro τ s e s' - ih ⟨a, ha⟩
  -- the step is the one that the state is ready for
  have hsame : (∃ e s', clientStep s a = some (e, s') ∧ Served (e :: τ) s') →
      Served (e :: τ) s' := by
    rintro ⟨e', s₁, hstep, h⟩
    rw [ha] at hstep
    cases hstep
    exact h
  refine hsame ?_
  cases a with
  | reader r rand =>
    simp only [clientStep] at ha
    split at ha
    · rename_i hguard
      exact ih.reader hcard rand hguard.1 hguard.2
    · cases ha
  | writer w rand random addr =>
    simp only [clientStep] at ha
    split at ha
    · rename_i hguard
      exact ih.writer hcard rand random hguard.1 hguard.2.1 hguard.2.2
    · cases ha
  | close =>
    simp only [clientStep] at ha
    split at ha
    · rename_i hguard
      exact ih.close hguard.1 hguard.2.1 hguard.2.2
    · cases ha

/-- For any number of readers and writers and every order of their rounds, with every `kzalloc`
giving a fresh node: the lines are right (every write succeeds with a digit; a read succeeds, with
the value asked for, just when that value has been written more often than read); the list has just
the nodes that the lines tell of; no round fails while the device is open; and after the close no
node is left in memory. -/
theorem clients_served (hcard : Fintype.card W * NUMLOOP < 2 ^ 31)
    (hrun : Run (StepBy clientStep) (begin R W) τ s) :
    Truthful τ ∧
    (∃ l, Holds s.driver l ∧ (s.opened = true → ∀ v, Tells τ v (nodesWith l v))) ∧
    (s.opened = true →
      (∀ r rand, s.reads r < NUMLOOP → (clientStep s (.reader r rand)).isSome = true) ∧
      (∀ w rand random addr, s.writes w < NUMLOOP → s.driver.heap addr = none →
        (clientStep s (.writer w rand random addr)).isSome = true) ∧
      ((∀ r, s.reads r = NUMLOOP) → (∀ w, s.writes w = NUMLOOP) →
        (clientStep s .close).isSome = true)) ∧
    (s.opened = false → s.driver = start) := by
  have h := served_of_run hcard hrun
  obtain ⟨l, hl, -, htells⟩ := h.list
  refine ⟨h.truthful, ⟨l, hl, htells⟩, fun hopened => ⟨?_, ?_, ?_⟩, h.closed⟩
  · intro r rand hround
    obtain ⟨e, s', hstep, -⟩ := h.reader hcard rand hopened hround
    rw [hstep]
    rfl
  · intro w rand random addr hround haddr
    obtain ⟨e, s', hstep, -⟩ := h.writer hcard rand random hopened hround haddr
    rw [hstep]
    rfl
  · intro hreads hwrites
    obtain ⟨e, s', hstep, -⟩ := h.close hopened hreads hwrites
    rw [hstep]
    rfl

/-- A reader asks for 3 in vain, a writer writes it, and the reader gets it. -/
theorem clients_served_three :
    ∃ (τ : List (Round (Fin 1) (Fin 1))) (s : Clients (Fin 1) (Fin 1)),
      Run (StepBy clientStep) (begin (Fin 1) (Fin 1)) τ s ∧ Truthful τ ∧ s.driver.size = 0 ∧
      s.reads 0 = 2 := by
  let turns : List (Turn (Fin 1) (Fin 1)) :=
    [.reader 0 3, .writer 0 13 7 0, .reader 0 23]
  let r := (perform clientStep [] (begin (Fin 1) (Fin 1)) turns).get (by decide)
  have hrun : Run (StepBy clientStep) (begin (Fin 1) (Fin 1)) r.1 r.2 := run_of_get _
  exact ⟨r.1, r.2, hrun, (clients_served (by decide) hrun).1, by decide, by decide⟩

end EE516.LinkedList
