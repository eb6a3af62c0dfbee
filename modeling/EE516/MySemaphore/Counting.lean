import Mathlib.Data.Finset.Card
import Mathlib.Data.Finset.Insert
import EE516.MySemaphore.Steps

/-!
# Counting downs and ups

On a semaphore that `sys_mysema_init` started with the value `k`, and that nobody releases, the
count and the number of granted downs make up `k` and the number of ups (`Counted`), in every order
of the steps. When all threads bracket their critical sections with a down and an up, the count and
the threads that hold the semaphore make up `k` (`Held`), so that at most `k` threads are inside.
-/

set_option autoImplicit false

namespace EE516.MySemaphore

open EE516.Foundations

universe u

variable {Tid : Type u}

/-- The position is in a down or an up on the semaphore. -/
def Position.occupied (i : SemaId) : Position → Bool
  | .checked (.down j _) => j == i
  | .checked (.up j) => j == i
  | .sleeping j => j == i
  | .relocking j => j == i
  | _ => false

/-- A thread is occupied with a semaphore in its loop and between the checks and the commit of a
down or an up. -/
theorem occupied_iff {s : State Tid} {t : Tid} {i : SemaId} :
    (s.pos t).occupied i = true ↔ InLoop s t i ∨ (∃ p, s.pos t = .checked (.down i p)) ∨
      s.pos t = .checked (.up i) := by
  rw [InLoop]
  cases s.pos t with
  | checked c => cases c <;> simp [Position.occupied]
  | _ => simp [Position.occupied]

/-! ## Reading a history -/

/-- The step was the commit of an up. -/
def isUp (i : SemaId) : Event Tid → Bool
  | .incremented _ j => j == i
  | .handed _ _ j => j == i
  | .upFailed _ j => j == i
  | _ => false

/-- The step granted a down, by the count or by the hand of an up. -/
def isGrant (i : SemaId) : Event Tid → Bool
  | .decremented _ j => j == i
  | .handed _ _ j => j == i
  | _ => false

/-- The number of ups in a history. -/
def ups (i : SemaId) (τ : List (Event Tid)) : Nat :=
  τ.countP (isUp i)

/-- The number of granted downs in a history. -/
def grants (i : SemaId) (τ : List (Event Tid)) : Nat :=
  τ.countP (isGrant i)

@[simp] theorem ups_nil (i : SemaId) : ups i ([] : List (Event Tid)) = 0 := rfl

@[simp] theorem grants_nil (i : SemaId) : grants i ([] : List (Event Tid)) = 0 := rfl

theorem ups_cons (i : SemaId) (e : Event Tid) (τ : List (Event Tid)) :
    ups i (e :: τ) = ups i τ + if isUp i e then 1 else 0 :=
  List.countP_cons

theorem grants_cons (i : SemaId) (e : Event Tid) (τ : List (Event Tid)) :
    grants i (e :: τ) = grants i τ + if isGrant i e then 1 else 0 :=
  List.countP_cons

section Other

variable {i : SemaId} {e : Event Tid} (h : e.id ≠ some i)

include h

theorem isUp_of_other : isUp i e = false := by
  cases e <;> simp_all [isUp, Event.id]

theorem isGrant_of_other : isGrant i e = false := by
  cases e <;> simp_all [isGrant, Event.id]

end Other

section Histories

variable [DecidableEq Tid]

/-- The last down of the thread that came to its commit was granted. -/
def granted (i : SemaId) (t : Tid) : List (Event Tid) → Bool
  | [] => false
  | .decremented u j :: τ => if u = t ∧ j = i then true else granted i t τ
  | .slept u j :: τ => if u = t ∧ j = i then false else granted i t τ
  | .handed _ w j :: τ => if w = t ∧ j = i then true else granted i t τ
  | _ :: τ => granted i t τ

/-- The thread is in its critical section: a down returned to it, and it did not call an up
since. -/
def inside (i : SemaId) (t : Tid) : List (Event Tid) → Bool
  | [] => false
  | .decremented u j :: τ => if u = t ∧ j = i then true else inside i t τ
  | .left u j :: τ => if u = t ∧ j = i then true else inside i t τ
  | .checked u (.up j) :: τ => if u = t ∧ j = i then false else inside i t τ
  | _ :: τ => inside i t τ

/-- All threads bracket their critical sections: a down is called outside of them, and an up ends
one. -/
def Bracketed (i : SemaId) : List (Event Tid) → Prop
  | [] => True
  | .checked t (.down j _) :: τ => (j = i → inside i t τ = false) ∧ Bracketed i τ
  | .checked t (.up j) :: τ => (j = i → inside i t τ = true) ∧ Bracketed i τ
  | _ :: τ => Bracketed i τ

/-! A step about another semaphore does not count. -/

section Other

variable {i : SemaId} {e : Event Tid} (h : e.id ≠ some i) (t : Tid) (τ : List (Event Tid))

include h

theorem granted_of_other : granted i t (e :: τ) = granted i t τ := by
  cases e <;> simp_all [granted, Event.id]

theorem inside_of_other : inside i t (e :: τ) = inside i t τ := by
  cases e with
  | checked u k => cases k <;> simp_all [inside, Event.id, Commit.id]
  | _ => simp_all [inside, Event.id]

end Other

/-- The earlier part of a bracketed history is bracketed. -/
theorem Bracketed.tail {i : SemaId} {e : Event Tid} {τ : List (Event Tid)}
    (h : Bracketed i (e :: τ)) : Bracketed i τ := by
  cases e with
  | checked u k =>
    cases k with
    | down j p => exact h.2
    | up j => exact h.2
    | _ => exact h
  | _ => exact h

end Histories

/-- The semaphore right after a successful `sys_mysema_init`, with no thread in another call on
it. -/
structure Started [DecidableEq Tid] (i : SemaId) (k : Nat) (mode : Int) (s : State Tid) : Prop where
  reachable : Reachable s
  sem : s.sem_set i = ⟨mode, k, ACTIVE, some []⟩
  away : ∀ t, (s.pos t).id ≠ some i

variable [DecidableEq Tid]

/-! ## The count -/

/-- The count of the semaphore `i` after a history. -/
structure Counted (i : SemaId) (k : Nat) (mode : Int) (τ : List (Event Tid)) (s : State Tid) :
    Prop where
  mode : (s.sem_set i).mode = mode
  state : (s.sem_set i).state = ACTIVE
  list : ∃ l, (s.sem_set i).wait_list = some l ∧ (l ≠ [] → (s.sem_set i).count = 0)
  count : (s.sem_set i).count + grants i τ = k + ups i τ
  noInit : ∀ t v m, s.pos t ≠ .checked (.init i v m)
  granted : ∀ t, InLoop s t i → (s.waiter t).up = true → granted i t τ = true

/-- At the start nothing was granted and the count is the initial one. -/
theorem Started.counted {i : SemaId} {k : Nat} {mode : Int} {s : State Tid}
    (h : Started i k mode s) : Counted i k mode [] s where
  mode := by rw [h.sem]
  state := by rw [h.sem]
  list := ⟨[], by rw [h.sem], fun h => absurd rfl h⟩
  count := by simp [h.sem]
  noInit t v m hp := h.away t (by rw [hp]; rfl)
  granted t ht := absurd ht (not_inLoop_of_id (h.away t))

section Count

variable {i : SemaId} {k : Nat} {mode : Int} {τ : List (Event Tid)} {s s' : State Tid}
  {e : Event Tid}

theorem Counted.other (hc : Counted i k mode τ s) (hu : Untouched i s s') (hi : e.id ≠ some i) :
    Counted i k mode (e :: τ) s' where
  mode := by rw [hu.sem, hc.mode]
  state := by rw [hu.sem, hc.state]
  list := by rw [hu.sem]; exact hc.list
  count := by
    rw [hu.sem, grants_cons, ups_cons, isGrant_of_other hi, isUp_of_other hi]
    simpa using hc.count
  noInit t v m hp := hc.noInit t v m ((hu.checked t _ rfl).1 hp)
  granted t ht hup := by
    rw [granted_of_other hi]
    have ht := (hu.loop t).1 ht
    exact hc.granted t ht (hu.waiter t ht ▸ hup)

/-- A thread in the loop whose waiter is up was granted its down: only the hand of an up sets a
waiter up, and a down that goes to sleep starts with one that is not. -/
theorem granted_of_effect (hw : WellFormed s) (h : Effect s e s')
    (hg : ∀ t, InLoop s t i → (s.waiter t).up = true → granted i t τ = true) (t : Tid)
    (ht : InLoop s' t i) (hup : (s'.waiter t).up = true) : granted i t (e :: τ) = true := by
  -- a thread that the step took out of the calls is not in the loop
  have hidle : ∀ (r : State Tid) (u : Tid), r.pos = s.pos → InLoop (r.setPos u .idle) t i →
      t ≠ u ∧ InLoop s t i := by
    intro r u hr hloop
    have htu : t ≠ u := by
      rintro rfl
      simp [InLoop] at hloop
    exact ⟨htu, by simpa [InLoop, htu, hr] using hloop⟩
  cases h with
  | rejected hpos hcheck => exact hg t ht hup
  | woken => exact hg t ht hup
  | @checked u c k hpos hcheck =>
    have htu : t ≠ u := by
      rintro rfl
      simp [InLoop] at ht
    have h := hg t (by simpa [InLoop, htu] using ht) hup
    cases k <;> exact h
  | initialised | incremented | upFailed | released | left =>
    exact hg t (hidle _ _ rfl ht).2 hup
  | @decremented u j p hpos hcount =>
    have h := hg t (hidle _ _ rfl ht).2 hup
    unfold granted
    split
    · rfl
    · exact h
  | @slept u j p junk l hpos hcount hl =>
    have htu : t ≠ u := by
      rintro rfl
      simp at hup
    have h := hg t (by simpa [InLoop, htu] using ht) (by simpa [htu] using hup)
    simpa [granted, htu.symm] using h
  | @handed u w j prio l l' hpos hl hne ho =>
    obtain ⟨-, hloop⟩ := hidle _ _ rfl ht
    by_cases htw : t = w
    · subst htw
      -- the waiter that comes up is in the loop of the semaphore that hands it the down
      have hj := ((hw j l hl).2 t ((wakeOrder_perm ho).mem_iff.1 List.mem_cons_self)).1
      obtain rfl := hj.of_eq hloop
      simp [granted]
    · have h := hg t hloop (by simpa [htw] using hup)
      simpa [granted, Ne.symm htw] using h
  | @scheduled u j hpos htask =>
    by_cases htu : t = u
    · subst htu
      obtain rfl : j = i := by simpa [InLoop] using ht
      exact hg t (Or.inl hpos) hup
    · exact hg t (by simpa [InLoop, htu] using ht) hup
  | @sleptAgain u j hpos hdown =>
    have htu : t ≠ u := by
      rintro rfl
      rw [State.setPos_waiter, State.setTask_waiter, hdown] at hup
      cases hup
    exact hg t (by simpa [InLoop, htu] using ht) hup

/-- Every step keeps the balance of count, ups and grants. -/
theorem Counted.effect (hc : Counted i k mode τ s) (hmode : mode = FIFO ∨ mode = OS ∨ mode = USER)
    (hw : WellFormed s) (h : Effect s e s') (hrel : ∀ t, e ≠ .released t i)
    (hups : k + ups i (e :: τ) < UINT_RANGE) : Counted i k mode (e :: τ) s' := by
  by_cases hi : e.id = some i
  swap
  · exact hc.other (untouched_of_effect hw h hi) hi
  obtain ⟨l₀, hl₀, hcount₀⟩ := hc.list
  have hsum := hc.count
  rw [ups_cons] at hups
  have hno := noInit_of_effect h hc.state hc.noInit
  have hg := granted_of_effect hw h hc.granted
  cases h with
  | rejected hpos hcheck => cases hi
  | woken => cases hi
  | released hpos =>
    obtain rfl := Option.some.inj hi
    exact absurd rfl (hrel _)
  | @initialised t j v m hpos =>
    obtain rfl := Option.some.inj hi
    exact absurd hpos (hc.noInit t v m)
  | checked | scheduled | sleptAgain | left =>
    exact ⟨hc.mode, hc.state, hc.list, by simpa [grants_cons, ups_cons, isGrant, isUp] using hsum,
      hno, hg⟩
  | @decremented t j p hpos hcount =>
    obtain rfl := Option.some.inj hi
    -- a positive count means that there are no waiters
    have hl : l₀ = [] := by
      by_contra hne
      exact absurd (hcount₀ hne) (Nat.ne_of_gt hcount)
    refine ⟨by simpa using hc.mode, by simpa using hc.state, ⟨l₀, by simpa using hl₀, by simp [hl]⟩,
      ?_, hno, hg⟩
    simp only [State.setPos_sem_set, State.setSem_sem_set, Function.update_self, grants_cons,
      ups_cons, isGrant, isUp, beq_self_eq_true, if_true]
    simp only [Bool.false_eq_true, if_false]
    omega
  | @slept t j p junk l hpos hcount hl =>
    obtain rfl := Option.some.inj hi
    exact ⟨by simpa using hc.mode, by simpa using hc.state,
      ⟨l ++ [t], by simp, fun _ => by simpa using hcount⟩,
      by simpa [grants_cons, ups_cons, isGrant, isUp] using hsum, hno, hg⟩
  | @incremented t j hpos hl =>
    obtain rfl := Option.some.inj hi
    -- the ups so far bound the count, which does not wrap around
    have hle : (s.sem_set j).count + 1 < UINT_RANGE := by
      simp only [isUp, beq_self_eq_true, if_true] at hups
      omega
    refine ⟨by simpa using hc.mode, by simpa using hc.state, ⟨[], by simpa using hl, by simp⟩, ?_,
      hno, hg⟩
    simp only [State.setPos_sem_set, State.setSem_sem_set, Function.update_self, grants_cons,
      ups_cons, isGrant, isUp, beq_self_eq_true, if_true, Nat.mod_eq_of_lt hle]
    simp only [Bool.false_eq_true, if_false]
    omega
  | @handed t w j prio l l' hpos hl hne ho =>
    obtain rfl := Option.some.inj hi
    obtain rfl : l₀ = l := Option.some.inj (hl₀.symm.trans hl)
    refine ⟨by simpa using hc.mode, by simpa using hc.state,
      ⟨l', by simp, fun _ => by simpa using hcount₀ hne⟩, ?_, hno, hg⟩
    simp only [State.setPos_sem_set, State.setTask_sem_set, State.setWaiter_sem_set,
      State.setSem_sem_set, Function.update_self, grants_cons, ups_cons, isGrant, isUp,
      beq_self_eq_true, if_true]
    omega
  | @upFailed t j prio l hpos hl hne ho =>
    obtain rfl := Option.some.inj hi
    rw [hc.mode] at ho
    exact absurd ho (wakeOrder_ne_none hmode)

end Count

/-! ## The threads that hold the semaphore -/

/-- The thread is in its critical section, or about to give it up, or has been granted the down in
whose loop it still is. -/
def Holds (i : SemaId) (τ : List (Event Tid)) (s : State Tid) (t : Tid) : Prop :=
  inside i t τ = true ∨ s.pos t = .checked (.up i) ∨ (InLoop s t i ∧ (s.waiter t).up = true)

/-- The count and the holders of the semaphore after a bracketed history. -/
structure Held (i : SemaId) (k : Nat) (τ : List (Event Tid)) (s : State Tid) : Prop where
  holders : ∃ H : Finset Tid, (∀ t, t ∈ H ↔ Holds i τ s t) ∧ (s.sem_set i).count + H.card = k
  apart : ∀ t, inside i t τ = true → (s.pos t).occupied i = false

section Hold

variable {i : SemaId} {k : Nat} {mode : Int} {τ τ' : List (Event Tid)} {s s' : State Tid}
  {e : Event Tid}

theorem holds_congr {u : Tid} (hin : inside i u τ' = inside i u τ) (hpos : s'.pos u = s.pos u)
    (hw : s'.waiter u = s.waiter u) : Holds i τ' s' u ↔ Holds i τ s u := by
  rw [Holds, Holds, InLoop, InLoop, hin, hpos, hw]

/-- At the start nobody holds a unit. -/
theorem Started.held (h : Started i k mode s) : Held i k [] s where
  holders := by
    refine ⟨∅, fun t => iff_of_false (by simp) ?_, by simp [h.sem]⟩
    rintro (hin | hpos | ⟨hloop, -⟩)
    · cases hin
    · exact h.away t (by rw [hpos]; rfl)
    · exact not_inLoop_of_id (h.away t) hloop
  apart t hin := by cases hin

/-- A thread that is occupied with the semaphore is not inside. -/
theorem Held.not_inside (hh : Held i k τ s) {t : Tid} (h : (s.pos t).occupied i = true) :
    inside i t τ = false := by
  cases hin : inside i t τ with
  | false => rfl
  | true =>
    rw [hh.apart t hin] at h
    cases h

/-- A step that moves one thread keeps critical sections apart from downs and ups. -/
theorem Held.apart_of_move (hh : Held i k τ s) (t : Tid)
    (ht : inside i t (e :: τ) = true → (s'.pos t).occupied i = false)
    (hother : ∀ u, u ≠ t → inside i u (e :: τ) = inside i u τ ∧ s'.pos u = s.pos u) :
    ∀ u, inside i u (e :: τ) = true → (s'.pos u).occupied i = false := by
  intro u hu
  by_cases hut : u = t
  · subst hut
    exact ht hu
  · obtain ⟨h₁, h₂⟩ := hother u hut
    rw [h₂]
    exact hh.apart u (h₁ ▸ hu)

/-- A step that moves one thread and does not change whether it holds the semaphore. -/
theorem Held.keep (hh : Held i k τ s) (t : Tid)
    (hcount : (s'.sem_set i).count = (s.sem_set i).count)
    (hholds : Holds i (e :: τ) s' t ↔ Holds i τ s t)
    (ht : inside i t (e :: τ) = true → (s'.pos t).occupied i = false)
    (hother : ∀ u, u ≠ t → inside i u (e :: τ) = inside i u τ ∧ s'.pos u = s.pos u ∧
      s'.waiter u = s.waiter u) : Held i k (e :: τ) s' := by
  obtain ⟨H, hH, hcard⟩ := hh.holders
  refine ⟨⟨H, fun u => ?_, by rw [hcount, hcard]⟩, hh.apart_of_move t ht fun u hu => ?_⟩
  · by_cases hut : u = t
    · subst hut
      rw [hH, hholds]
    · obtain ⟨h₁, h₂, h₃⟩ := hother u hut
      rw [hH, holds_congr h₁ h₂ h₃]
  · obtain ⟨h₁, h₂, -⟩ := hother u hu
    exact ⟨h₁, h₂⟩

/-- A thread that holds the semaphore has taken one from the count. -/
theorem Held.count_lt (hh : Held i k τ s) {t : Tid} (ht : Holds i τ s t) :
    (s.sem_set i).count < k := by
  obtain ⟨H, hH, hcard⟩ := hh.holders
  have hpositive := Finset.card_pos.2 ⟨t, (hH t).2 ht⟩
  omega

/-- A step in which one thread comes to hold the semaphore, and the count goes down. -/
theorem Held.gain (hh : Held i k τ s) (t : Tid)
    (hcount : (s'.sem_set i).count + 1 = (s.sem_set i).count)
    (hbefore : ¬ Holds i τ s t) (hafter : Holds i (e :: τ) s' t)
    (ht : inside i t (e :: τ) = true → (s'.pos t).occupied i = false)
    (hother : ∀ u, u ≠ t → inside i u (e :: τ) = inside i u τ ∧ s'.pos u = s.pos u ∧
      s'.waiter u = s.waiter u) : Held i k (e :: τ) s' := by
  obtain ⟨H, hH, hcard⟩ := hh.holders
  have hnot : t ∉ H := by
    rw [hH]
    exact hbefore
  refine ⟨⟨insert t H, fun u => ?_, ?_⟩, hh.apart_of_move t ht fun u hu => ?_⟩
  · by_cases hut : u = t
    · subst hut
      exact iff_of_true (Finset.mem_insert_self u H) hafter
    · obtain ⟨h₁, h₂, h₃⟩ := hother u hut
      rw [Finset.mem_insert, hH, or_iff_right hut, holds_congr h₁ h₂ h₃]
  · rw [Finset.card_insert_of_notMem hnot]
    omega
  · obtain ⟨h₁, h₂, -⟩ := hother u hu
    exact ⟨h₁, h₂⟩

/-- A step in which one thread gives the semaphore up, and the count goes up. -/
theorem Held.lose (hh : Held i k τ s) (t : Tid)
    (hcount : (s'.sem_set i).count = (s.sem_set i).count + 1)
    (hbefore : Holds i τ s t) (hafter : ¬ Holds i (e :: τ) s' t)
    (ht : inside i t (e :: τ) = true → (s'.pos t).occupied i = false)
    (hother : ∀ u, u ≠ t → inside i u (e :: τ) = inside i u τ ∧ s'.pos u = s.pos u ∧
      s'.waiter u = s.waiter u) : Held i k (e :: τ) s' := by
  obtain ⟨H, hH, hcard⟩ := hh.holders
  have hmem : t ∈ H := (hH t).2 hbefore
  have hpositive := Finset.card_pos.2 ⟨t, hmem⟩
  refine ⟨⟨H.erase t, fun u => ?_, ?_⟩, hh.apart_of_move t ht fun u hu => ?_⟩
  · by_cases hut : u = t
    · subst hut
      exact iff_of_false (Finset.notMem_erase u H) hafter
    · obtain ⟨h₁, h₂, h₃⟩ := hother u hut
      rw [Finset.mem_erase, hH, and_iff_right hut, holds_congr h₁ h₂ h₃]
  · rw [Finset.card_erase_of_mem hmem]
    omega
  · obtain ⟨h₁, h₂, -⟩ := hother u hu
    exact ⟨h₁, h₂⟩

/-- A step in which one thread gives the semaphore up and another comes to hold it. -/
theorem Held.pass (hh : Held i k τ s) (t w : Tid) (hwt : w ≠ t)
    (hcount : (s'.sem_set i).count = (s.sem_set i).count)
    (hbefore : Holds i τ s t) (hafter : ¬ Holds i (e :: τ) s' t)
    (hwbefore : ¬ Holds i τ s w) (hwafter : Holds i (e :: τ) s' w)
    (ht : inside i t (e :: τ) = true → (s'.pos t).occupied i = false)
    (hother : ∀ u, u ≠ t → inside i u (e :: τ) = inside i u τ ∧ s'.pos u = s.pos u)
    (hwaiter : ∀ u, u ≠ w → s'.waiter u = s.waiter u) : Held i k (e :: τ) s' := by
  obtain ⟨H, hH, hcard⟩ := hh.holders
  have hmem : t ∈ H := (hH t).2 hbefore
  have hpositive := Finset.card_pos.2 ⟨t, hmem⟩
  have hnot : w ∉ H.erase t := by
    rw [Finset.mem_erase, hH]
    exact fun hw => hwbefore hw.2
  refine ⟨⟨insert w (H.erase t), fun u => ?_, ?_⟩, hh.apart_of_move t ht hother⟩
  · rw [Finset.mem_insert, Finset.mem_erase]
    by_cases hut : u = t
    · subst hut
      exact iff_of_false (by simp [hwt.symm]) hafter
    · by_cases huw : u = w
      · subst huw
        exact iff_of_true (.inl rfl) hwafter
      · obtain ⟨h₁, h₂⟩ := hother u hut
        rw [hH, or_iff_right huw, and_iff_right hut, holds_congr h₁ h₂ (hwaiter u huw)]
  · rw [Finset.card_insert_of_notMem hnot, Finset.card_erase_of_mem hmem]
    omega

theorem Held.other (hh : Held i k τ s) (hu : Untouched i s s') (hi : e.id ≠ some i) :
    Held i k (e :: τ) s' where
  holders := by
    obtain ⟨H, hH, hcard⟩ := hh.holders
    refine ⟨H, fun t => (hH t).trans ?_, by rw [hu.sem, hcard]⟩
    rw [Holds, Holds, inside_of_other hi, hu.checked t _ rfl, hu.loop t]
    refine or_congr_right (or_congr_right (and_congr_right fun ht => ?_))
    rw [hu.waiter t ht]
  apart t hin := by
    rw [inside_of_other hi] at hin
    have h := hh.apart t hin
    rw [← Bool.not_eq_true, occupied_iff] at h ⊢
    simpa only [hu.loop t, hu.checked t (.down i _) rfl, hu.checked t (.up i) rfl] using h

/-- Every step keeps the bound on the holders. -/
theorem Held.effect (hh : Held i k τ s) (hc : Counted i k mode τ s) (hk : k < UINT_RANGE)
    (hmode : mode = FIFO ∨ mode = OS ∨ mode = USER) (hw : WellFormed s) (h : Effect s e s')
    (hrel : ∀ t, e ≠ .released t i) (hb : Bracketed i (e :: τ)) : Held i k (e :: τ) s' := by
  by_cases hi : e.id = some i
  swap
  · exact hh.other (untouched_of_effect hw h hi) hi
  cases h with
  | rejected hpos hcheck => cases hi
  | woken => cases hi
  | released hpos =>
    obtain rfl := Option.some.inj hi
    exact absurd rfl (hrel _)
  | @initialised t j v m hpos =>
    obtain rfl := Option.some.inj hi
    exact absurd hpos (hc.noInit t v m)
  | @upFailed t j prio l hpos hl hne ho =>
    obtain rfl := Option.some.inj hi
    rw [hc.mode] at ho
    exact absurd ho (wakeOrder_ne_none hmode)
  | @checked t c j hpos hcheck =>
    have hid : j.id = i := Option.some.inj hi
    refine hh.keep t rfl ?_ (fun hin => ?_) fun u hut => ⟨?_, by simp [hut], rfl⟩
    · cases j with
      | up j =>
        obtain rfl : j = i := hid
        simp [Holds, hb.1 rfl]
      | _ => simp [Holds, InLoop, hpos, inside]
    · cases j with
      | up j =>
        obtain rfl : j = i := hid
        simp [inside] at hin
      | down j p =>
        obtain rfl : j = i := hid
        cases (hb.1 rfl).symm.trans hin
      | _ => simp [Position.occupied]
    · cases j <;> simp [inside, Ne.symm hut]
  | @decremented t j p hpos hcount =>
    obtain rfl := Option.some.inj hi
    have hout := hh.not_inside (t := t) (by simp [hpos, Position.occupied])
    refine hh.gain t ?_ ?_ ?_ (fun _ => ?_) fun u hut => ⟨?_, by simp [hut], rfl⟩
    · simp only [State.setPos_sem_set, State.setSem_sem_set, Function.update_self]
      omega
    · simp [Holds, hout, hpos, InLoop]
    · simp [Holds, inside]
    · simp [Position.occupied]
    · simp [inside, Ne.symm hut]
  | @slept t j p junk l hpos hcount hl =>
    obtain rfl := Option.some.inj hi
    have hout := hh.not_inside (t := t) (by simp [hpos, Position.occupied])
    refine hh.keep t (by simp) ?_ (fun hin => ?_) fun u hut => ⟨?_, by simp [hut], by simp [hut]⟩
    · simp [Holds, InLoop, inside, hout, hpos]
    · cases hout.symm.trans hin
    · simp [inside]
  | @incremented t j hpos hl =>
    obtain rfl := Option.some.inj hi
    have hout := hh.not_inside (t := t) (by simp [hpos, Position.occupied])
    have hholds : Holds j τ s t := Or.inr (Or.inl hpos)
    -- the count stays below `k`, and does not wrap around
    have hlt : (s.sem_set j).count + 1 < UINT_RANGE := by
      have := hh.count_lt hholds
      omega
    refine hh.lose t ?_ hholds ?_ (fun _ => ?_) fun u hut => ⟨?_, by simp [hut], rfl⟩
    · simp [Nat.mod_eq_of_lt hlt]
    · simp [Holds, inside, hout, InLoop]
    · simp [Position.occupied]
    · simp [inside]
  | @handed t w j prio l l' hpos hl hne ho =>
    obtain rfl := Option.some.inj hi
    have hout := hh.not_inside (t := t) (by simp [hpos, Position.occupied])
    -- the waiter passes from not holding the semaphore to holding it; the caller gives it up
    obtain ⟨hloop, hup⟩ := (hw j l hl).2 w ((wakeOrder_perm ho).mem_iff.1 List.mem_cons_self)
    have hwout := hh.not_inside (t := w) (occupied_iff.2 (Or.inl hloop))
    have hwt : w ≠ t := by
      rintro rfl
      exact not_inLoop_of_checked hpos j hloop
    refine hh.pass t w hwt ?_ (Or.inr (Or.inl hpos)) ?_ ?_ ?_ (fun _ => ?_)
      (fun u hut => ⟨?_, ?_⟩) fun u huw => ?_
    · simp
    · simp [Holds, inside, hout, InLoop]
    · rintro (hin | hposw | ⟨-, hupw⟩)
      · rw [hwout] at hin
        cases hin
      · exact not_inLoop_of_checked hposw j hloop
      · rw [hup] at hupw
        cases hupw
    · have hloop' : s.pos w = .sleeping j ∨ s.pos w = .relocking j := hloop
      simp [Holds, InLoop, hwt, hloop']
    · simp [Position.occupied]
    · simp [inside]
    · simp [hut]
    · simp [huw]
  | @scheduled t j hpos htask =>
    obtain rfl := Option.some.inj hi
    refine hh.keep t rfl ?_ (fun hin => ?_) fun u hut => ⟨?_, by simp [hut], rfl⟩
    · simp [Holds, InLoop, inside, hpos]
    · have hout := hh.not_inside (t := t) (by simp [hpos, Position.occupied])
      cases hout.symm.trans hin
    · simp [inside]
  | @sleptAgain t j hpos hup =>
    obtain rfl := Option.some.inj hi
    refine hh.keep t rfl ?_ (fun hin => ?_) fun u hut => ⟨?_, by simp [hut], rfl⟩
    · simp [Holds, InLoop, inside, hpos]
    · have hout := hh.not_inside (t := t) (by simp [hpos, Position.occupied])
      cases hout.symm.trans hin
    · simp [inside]
  | @left t j hpos hup =>
    obtain rfl := Option.some.inj hi
    refine hh.keep t rfl ?_ (fun _ => ?_) fun u hut => ⟨?_, by simp [hut], rfl⟩
    · simp [Holds, InLoop, inside, hpos, hup]
    · simp [Position.occupied]
    · simp [inside, Ne.symm hut]

/-- At most `k` threads are in their critical sections. -/
theorem Held.length_le (hh : Held i k τ s) {l : List Tid} (hl : l.Nodup)
    (hin : ∀ t ∈ l, inside i t τ = true) : l.length ≤ k := by
  obtain ⟨H, hH, hcard⟩ := hh.holders
  have hsub : l.toFinset ⊆ H := by
    intro t ht
    exact (hH t).2 (Or.inl (hin t (List.mem_toFinset.1 ht)))
  have hle := Finset.card_le_card hsub
  rw [List.toFinset_card_of_nodup hl] at hle
  omega

end Hold

/-! ## Runs -/

section Runs

variable {i : SemaId} {k : Nat} {mode : Int} {τ : List (Event Tid)} {s₀ s : State Tid}

/-- The balance holds in every run without a release. -/
theorem counted_of_run (hstart : Started i k mode s₀)
    (hmode : mode = FIFO ∨ mode = OS ∨ mode = USER) (hrun : Run (StepBy step) s₀ τ s)
    (hrel : ∀ t, .released t i ∉ τ) (hups : k + ups i τ < UINT_RANGE) : Counted i k mode τ s := by
  refine hrun.invariant
    (fun τ s => (∀ t, .released t i ∉ τ) → k + ups i τ < UINT_RANGE → Counted i k mode τ s)
    (fun _ _ => hstart.counted) (fun {τ s e s'} hrun ih he hrel hups => ?_) hrel hups
  have hups' : k + ups i τ < UINT_RANGE := by
    rw [ups_cons] at hups
    omega
  have hc := ih (fun t ht => hrel t (List.mem_cons_of_mem e ht)) hups'
  refine hc.effect hmode (hstart.reachable.run hrun).wellFormed (effect_of_step he) ?_ hups
  rintro t rfl
  exact hrel t List.mem_cons_self

/-- The bound on the holders holds in every run whose downs and ups are bracketed. -/
theorem held_of_run (hstart : Started i k mode s₀)
    (hmode : mode = FIFO ∨ mode = OS ∨ mode = USER) (hrun : Run (StepBy step) s₀ τ s)
    (hrel : ∀ t, .released t i ∉ τ) (hups : k + ups i τ < UINT_RANGE) (hb : Bracketed i τ) :
    Held i k τ s := by
  refine hrun.invariant
    (fun τ s => (∀ t, .released t i ∉ τ) → k + ups i τ < UINT_RANGE → Bracketed i τ →
      Held i k τ s)
    (fun _ _ _ => hstart.held) (fun {τ s e s'} hrun ih he hrel hups hb => ?_) hrel hups hb
  have hups' : k + ups i τ < UINT_RANGE := by
    rw [ups_cons] at hups
    omega
  have hrel' : ∀ t, .released t i ∉ τ := fun t ht => hrel t (List.mem_cons_of_mem e ht)
  have hc := counted_of_run hstart hmode hrun hrel' hups'
  refine (ih hrel' hups' hb.tail).effect hc (by omega) hmode
    (hstart.reachable.run hrun).wellFormed (effect_of_step he) ?_ hb
  rintro t rfl
  exact hrel t List.mem_cons_self

end Runs

/-- The waiter of the thread comes up in a step. -/
def ComesUp (s s' : State Tid) (t : Tid) : Prop :=
  (s.waiter t).up = false ∧ (s'.waiter t).up = true

/-- An up removes at most one waiter. -/
theorem comesUp_unique {i : SemaId} {e : Event Tid} {s s' : State Tid} (h : Effect s e s')
    (he : isUp i e = true) {u w : Tid} (hu : ComesUp s s' u) (hw : ComesUp s s' w) : u = w := by
  have hsame : s'.waiter = s.waiter → u = w := by
    intro heq
    have h := hu.2
    rw [heq, hu.1] at h
    cases h
  cases h with
  | incremented hpos hl => exact hsame rfl
  | upFailed hpos hl hne ho => exact hsame rfl
  | @handed t v j prio l l' hpos hl hne ho =>
    have honly : ∀ x, (s.waiter x).up = false →
        (Function.update s.waiter v { s.waiter v with up := true } x).up = true → x = v := by
      intro x h₁ h₂
      by_contra hne
      rw [Function.update_of_ne hne, h₁] at h₂
      cases h₂
    rw [honly u hu.1 hu.2, honly w hw.1 hw.2]
  | _ => cases he

/-- The commit of `sys_mysema_init` starts the semaphore when no other thread is in a call on it. -/
theorem started_of_initialised {i : SemaId} {s s' : State Tid} {t : Tid} (h : Reachable s)
    (he : StepBy step s (.initialised t i) s') (haway : ∀ u, u ≠ t → (s.pos u).id ≠ some i) :
    ∃ v mode, s.pos t = .checked (.init i v mode) ∧
      (0 ≤ v → v < 2 ^ 31 → Started i v.toNat mode s') := by
  have hreach := h.run (.step .start he)
  cases effect_of_step he with
  | @initialised _ _ v mode hpos =>
    refine ⟨v, mode, hpos, fun h₀ hlt => ⟨hreach, ?_, fun u => ?_⟩⟩
    · have hmod : v % UINT_RANGE = v := Int.emod_eq_of_lt h₀ (by simp only [UINT_RANGE]; omega)
      simp only [State.setPos_sem_set, State.setSem_sem_set, Function.update_self, hmod]
    · by_cases hut : u = t
      · simp [hut, Position.id]
      · simpa [hut] using haway u hut

/-- From a successful `sys_mysema_init` with the value `k` in a valid mode, in every order of the
steps of any number of threads, without a release and with fewer than 2^31 ups: only an exhausted
semaphore has waiters; the count and the granted downs make up `k` and the ups; an up grants at most
one down, and the thread that it hands over to leaves the wait list with its waiter up; a down
leaves its loop, and returns 0, only when it was granted (the other way to return 0 is the
decrement, which is a grant). With `k = 1` and bracketed critical sections at most one thread is
inside. -/
theorem downs_and_ups_balance {i : SemaId} {k : Nat} {mode : Int} {s₀ s : State Tid}
    {τ : List (Event Tid)} (hstart : Started i k mode s₀)
    (hmode : mode = FIFO ∨ mode = OS ∨ mode = USER) (hk : k < 2 ^ 31)
    (hrun : Run (StepBy step) s₀ τ s) (hrel : ∀ t, .released t i ∉ τ) (hups : ups i τ < 2 ^ 31) :
    (∃ l, (s.sem_set i).wait_list = some l ∧ (l ≠ [] → (s.sem_set i).count = 0)) ∧
      (s.sem_set i).count + grants i τ = k + ups i τ ∧
      (∀ e s', StepBy step s e s' → isUp i e = true →
        ∀ u w, ComesUp s s' u → ComesUp s s' w → u = w) ∧
      (∀ t w s', StepBy step s (.handed t w i) s' → WokenUp i w s s') ∧
      (∀ t s', StepBy step s (.left t i) s' → granted i t τ = true) ∧
      (k = 1 → Bracketed i τ →
        ∀ t u, inside i t τ = true → inside i u τ = true → t = u) := by
  have hrange : k + ups i τ < UINT_RANGE := by
    simp only [UINT_RANGE]
    omega
  have hc := counted_of_run hstart hmode hrun hrel hrange
  refine ⟨hc.list, hc.count, fun e s' he hup u w hu hw => ?_,
    fun t w s' he => wokenUp_of_effect (effect_of_step he), fun t s' he => ?_, ?_⟩
  · exact comesUp_unique (effect_of_step he) hup hu hw
  · cases effect_of_step he with
    | left hpos hup => exact hc.granted t (Or.inr hpos) hup
  · rintro rfl hb t u ht hu
    have hh := held_of_run hstart hmode hrun hrel hrange hb
    by_contra hne
    have hle := hh.length_le (l := [t, u]) (by simpa using hne) (by simp [ht, hu])
    simp at hle

/-- One thread takes the semaphore, the other one sleeps and gets it from the first one's up. -/
theorem downs_and_ups_balance_handoff :
    ∃ (s₀ s : State (Fin 2)) (τ : List (Event (Fin 2))), Started 2 1 FIFO s₀ ∧
      Run (StepBy step) s₀ τ s ∧ .handed 0 1 2 ∈ τ ∧
      (s.sem_set 2).count + grants 2 τ = 1 + ups 2 τ ∧
      ∀ t u, inside 2 t τ = true → inside 2 u τ = true → t = u := by
  let l₀ : List (Action (Fin 2)) := [.call 0 (.init 2 1 FIFO), .commit 0 0 fun _ => 0]
  let r₀ := (perform step [] (boot (Fin 2)) l₀).get rfl
  let l : List (Action (Fin 2)) :=
    [.call 0 (.down 2), .commit 0 0 fun _ => 0, .call 1 (.down 2), .commit 1 0 fun _ => 0,
      .call 0 (.up 2), .commit 0 0 fun _ => 0, .schedule 1, .relock 1]
  let r := (perform step [] r₀.2 l).get rfl
  have hrun₀ : Run (StepBy step) (boot (Fin 2)) r₀.1 r₀.2 := run_of_get rfl
  have hrun : Run (StepBy step) r₀.2 r.1 r.2 := run_of_get rfl
  have hstart : Started 2 1 FIFO r₀.2 := ⟨⟨_, hrun₀⟩, rfl, by decide⟩
  obtain ⟨-, hcount, -, -, -, hone⟩ := downs_and_ups_balance hstart (Or.inl rfl) (by decide) hrun
    (by decide) (by decide)
  exact ⟨r₀.2, r.2, r.1, hstart, hrun, by decide, hcount,
    hone rfl ⟨fun _ => rfl, fun _ => rfl, fun _ => rfl, trivial⟩⟩

end EE516.MySemaphore
