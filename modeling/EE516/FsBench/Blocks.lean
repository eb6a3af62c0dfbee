import EE516.Foundations.Draws
import EE516.FsBench.RandomAccess

/-!
# Every block once

The flags in `parr` are those of the blocks used so far, and `count` is the number of the others:
the loops draw without repetition from the blocks `0, …, FILESIZE / req_size - 1`.
-/

set_option autoImplicit false

namespace EE516.FsBench

open EE516.Foundations

variable {mode : OpenMode} {call : String} {req_size : Nat} {s s' : Bench} {e : Event} {a : Answer}
  {τ : List Event} {mem : Nat → Int} {b : Nat}

/-! ## What a step does -/

/-- Everything that a step can be. -/
inductive Move (mode : OpenMode) (call : String) (req_size : Nat) (s : Bench) : Event → Bench → Prop
  | allocated (h : s.point = .memalign) :
      Move mode call req_size s .other { s with point := .files, i := 0 }
  | exit {e : Event} {text : String} (he : e.index = none) :
      Move mode call req_size s e { s with point := .exited text }
  | nextFile (h : s.point = .files) (hi : s.i < NUMFILES) :
      Move mode call req_size s .other { s with point := .openFile }
  | returned (h : s.point = .files) (hi : ¬ s.i < NUMFILES) :
      Move mode call req_size s .other { s with point := .returned }
  | opened (h : s.point = .openFile) :
      Move mode call req_size s (.openFile mode) { s with
        point := .fill 0, count := FILESIZE / req_size, modulus := FILESIZE / req_size }
  | fill {j : Nat} (h : s.point = .fill j) (hj : j < s.modulus) :
      Move mode call req_size s (.parr j)
        { s with point := .fill (j + 1), parr := Function.update s.parr j 0 }
  | filled {j : Nat} (h : s.point = .fill j) (hj : ¬ j < s.modulus) :
      Move mode call req_size s .other { s with point := .outer }
  | again (h : s.point = .outer) (hc : 0 < s.count) :
      Move mode call req_size s .other { s with point := .draw }
  | done (h : s.point = .outer) (hc : ¬ 0 < s.count) :
      Move mode call req_size s .other { s with point := .files, i := s.i + 1 }
  | drawn {r : Nat} (h : s.point = .draw ∨ s.point = .redraw) (hr : r ≤ RAND_MAX) :
      Move mode call req_size s (.rand r)
        { s with point := .inner, seekpoint := r % s.modulus }
  | used (h : s.point = .inner) (hp : s.parr s.seekpoint ≠ 0) :
      Move mode call req_size s (.parr s.seekpoint) { s with point := .redraw }
  | unused (h : s.point = .inner) (hp : s.parr s.seekpoint = 0) :
      Move mode call req_size s (.parr s.seekpoint) { s with point := .body }
  | transferred (h : s.point = .body) :
      Move mode call req_size s (.transfer s.seekpoint (req_size * s.seekpoint) req_size) { s with
        point := .outer, parr := Function.update s.parr s.seekpoint 1, count := s.count - 1 }
  | failed (h : s.point = .body) :
      Move mode call req_size s (.transfer s.seekpoint (req_size * s.seekpoint) req_size) { s with
        point := .exited call, parr := Function.update s.parr s.seekpoint 1 }

theorem move_of_random (h : random mode call req_size s a = some (e, s')) :
    Move mode call req_size s e s' := by
  unfold random at h
  split at h
  case h_1 hp =>
    split at h <;> cases h
    · exact .allocated hp
    · exact .exit rfl
  case h_2 hp =>
    split at h <;> cases h
    · exact .nextFile hp ‹_›
    · exact .returned hp ‹_›
  case h_3 hp =>
    split at h
    · cases h
      exact .exit rfl
    · split at h <;> cases h
      exact .opened hp
  case h_4 hp =>
    split at h <;> cases h
    · exact .fill hp ‹_›
    · exact .filled hp ‹_›
  case h_5 hp =>
    split at h <;> cases h
    · exact .again hp ‹_›
    · exact .done hp ‹_›
  case h_6 hp =>
    split at h <;> cases h
    exact .drawn (.inl hp) ‹_›
  case h_7 hp =>
    split at h <;> cases h
    · exact .used hp ‹_›
    · exact .unused hp (not_not.1 ‹_›)
  case h_8 hp =>
    split at h <;> cases h
    exact .drawn (.inr hp) ‹_›
  case h_9 hp =>
    simp only at h
    split at h <;> cases h
    · exact .failed hp
    · exact .transferred hp
  case h_10 => cases h

/-! ## The invariant -/

/-- The number of blocks. -/
def blocks (req_size : Nat) : Nat :=
  FILESIZE / req_size

/-- What the loop `while(count > 0)` keeps. -/
structure Loop (req_size : Nat) (τ : List Event) (s : Bench) : Prop where
  first : s.i = 0
  modulus : s.modulus = blocks req_size
  draws : Draws (List.range (blocks req_size)) (seekpoints τ) s.count
  marks : ∀ b < blocks req_size, s.parr b ≠ 0 ↔ b ∈ seekpoints τ

/-- The block that was drawn. -/
structure Drawn (req_size : Nat) (τ : List Event) (s : Bench) : Prop
    extends Loop req_size τ s where
  pos : 0 < s.count
  lt : s.seekpoint < blocks req_size

/-- What holds at each place; the file is the only one. -/
def Inv (req_size : Nat) (τ : List Event) (s : Bench) : Prop :=
  match s.point with
  | .memalign | .openFile => s.i = 0 ∧ seekpoints τ = []
  | .files =>
    s.i = 0 ∧ seekpoints τ = [] ∨
      s.i = 1 ∧ (seekpoints τ).Perm (List.range (blocks req_size))
  | .fill j =>
    s.i = 0 ∧ seekpoints τ = [] ∧ s.count = blocks req_size ∧ s.modulus = blocks req_size ∧
      ∀ b < j, s.parr b = 0
  | .outer => Loop req_size τ s
  | .draw => Loop req_size τ s ∧ 0 < s.count
  | .inner | .redraw => Drawn req_size τ s
  | .body => Drawn req_size τ s ∧ s.parr s.seekpoint = 0
  | .returned => (seekpoints τ).Perm (List.range (blocks req_size))
  | .exited _ => True

theorem inv_start : Inv req_size [] (start mem) :=
  ⟨rfl, rfl⟩

/-- A step without a transfer leaves the seekpoints as they are. -/
theorem seekpoints_cons (he : e.block = none) : seekpoints (e :: τ) = seekpoints τ :=
  List.filterMap_cons_none he

theorem Loop.of_eq (h : Loop req_size τ s) (hi : s'.i = s.i) (hm : s'.modulus = s.modulus)
    (hc : s'.count = s.count) (hp : s'.parr = s.parr) (he : e.block = none) :
    Loop req_size (e :: τ) s' where
  first := hi.trans h.first
  modulus := hm.trans h.modulus
  draws := by
    rw [seekpoints_cons he, hc]
    exact h.draws
  marks := by
    rw [seekpoints_cons he, hp]
    exact h.marks

/-- The block that was drawn has not been used; now it has been. -/
theorem Drawn.use {offset size : Nat} (h : Drawn req_size τ s) (hnew : s.parr s.seekpoint = 0)
    (hi : s'.i = s.i) (hm : s'.modulus = s.modulus) (hc : s'.count = s.count - 1)
    (hp : s'.parr = Function.update s.parr s.seekpoint 1) :
    Loop req_size (.transfer s.seekpoint offset size :: τ) s' := by
  have hcons : seekpoints (.transfer s.seekpoint offset size :: τ) =
      s.seekpoint :: seekpoints τ := List.filterMap_cons_some rfl
  have hnot : s.seekpoint ∉ seekpoints τ := fun hmem => (h.marks _ h.lt).2 hmem hnew
  obtain ⟨left, hleft⟩ : ∃ left, s.count = left + 1 := ⟨s.count - 1, by have := h.pos; omega⟩
  have hdraws := h.draws
  rw [hleft] at hdraws
  refine ⟨hi.trans h.first, hm.trans h.modulus, ?_, fun b hb => ?_⟩
  · rw [hcons, hc, hleft]
    exact hdraws.take (List.mem_range.2 h.lt) hnot
  · rw [hcons, hp, List.mem_cons]
    by_cases hbs : b = s.seekpoint
    · subst hbs
      simp
    · rw [Function.update_of_ne hbs, h.marks b hb]
      simp [hbs]

/-- Every step of the loop keeps the invariant. -/
theorem Inv.move (h : Inv req_size τ s) (hm : Move mode call req_size s e s') :
    Inv req_size (e :: τ) s' := by
  cases hm with
  | allocated hp =>
    simp only [Inv, hp] at h
    exact .inl ⟨rfl, h.2⟩
  | exit he => trivial
  | failed hp => trivial
  | nextFile hp hi =>
    simp only [Inv, hp] at h
    rcases h with h | ⟨h, -⟩
    · exact h
    · simp [NUMFILES, h] at hi
  | returned hp hi =>
    simp only [Inv, hp] at h
    rcases h with ⟨h, -⟩ | h
    · simp [NUMFILES, h] at hi
    · exact h.2
  | opened hp =>
    simp only [Inv, hp] at h
    exact ⟨h.1, h.2, rfl, rfl, fun b hb => (Nat.not_lt_zero b hb).elim⟩
  | @fill j hp hj =>
    simp only [Inv, hp] at h
    obtain ⟨hi, hτ, hc, hmod, hfill⟩ := h
    refine ⟨hi, hτ, hc, hmod, fun b hb => ?_⟩
    by_cases hbj : b = j
    · subst hbj
      exact Function.update_self _ _ _
    · exact (Function.update_of_ne hbj _ _).trans (hfill b (by omega))
  | @filled j hp hj =>
    simp only [Inv, hp] at h
    obtain ⟨hi, hτ, hc, hmod, hfill⟩ := h
    -- the flags are cleared, and no block has been used
    have hnil : seekpoints (.other :: τ) = [] := hτ
    refine ⟨hi, hmod, ?_, fun b hb => ?_⟩
    · rw [hnil]
      have hstart := Draws.start (List.range (blocks req_size))
      rw [List.length_range] at hstart
      exact hc ▸ hstart
    · rw [hnil]
      simpa using hfill b (by omega)
  | again hp hc =>
    simp only [Inv, hp] at h
    exact ⟨h.of_eq rfl rfl rfl rfl rfl, hc⟩
  | done hp hc =>
    simp only [Inv, hp] at h
    -- nothing is left to draw: the blocks used are all blocks
    have hzero : s.count = 0 := by omega
    refine .inr ⟨congrArg (· + 1) h.first, ?_⟩
    have hdraws := h.draws
    rw [hzero] at hdraws
    exact hdraws.perm
  | drawn hp hr =>
    have hloop : Loop req_size τ s ∧ 0 < s.count := by
      rcases hp with hp | hp
      · simpa only [Inv, hp] using h
      · simp only [Inv, hp] at h
        exact ⟨h.toLoop, h.pos⟩
    obtain ⟨hloop, hc⟩ := hloop
    -- a block is left, so that the divisor of the draw is not 0
    refine ⟨hloop.of_eq rfl rfl rfl rfl rfl, hc, ?_⟩
    have htotal := hloop.draws.total
    rw [List.length_range] at htotal
    rw [hloop.modulus]
    exact Nat.mod_lt _ (by omega)
  | used hp hmark =>
    simp only [Inv, hp] at h
    exact ⟨h.toLoop.of_eq rfl rfl rfl rfl rfl, h.pos, h.lt⟩
  | unused hp hmark =>
    simp only [Inv, hp] at h
    exact ⟨⟨h.toLoop.of_eq rfl rfl rfl rfl rfl, h.pos, h.lt⟩, hmark⟩
  | transferred hp =>
    simp only [Inv, hp] at h
    exact h.1.use h.2 rfl rfl rfl rfl

/-! ## What is used -/

/-- A block that is used lies in the file. -/
theorem offset_le (hb : b < blocks req_size) : req_size * b + req_size ≤ FILESIZE :=
  calc
    req_size * b + req_size = req_size * (b + 1) := (Nat.mul_succ req_size b).symm
    _ ≤ req_size * blocks req_size := Nat.mul_le_mul_left req_size hb
    _ ≤ FILESIZE := Nat.mul_div_le FILESIZE req_size

/-- The indexes of a step are those of cells, and a transfer is that of a block. -/
structure Inside (req_size : Nat) (e : Event) : Prop where
  index : ∀ j ∈ e.index, j < blocks req_size
  transfer : ∀ seekpoint offset size, e = .transfer seekpoint offset size →
    offset = req_size * seekpoint ∧ size = req_size

theorem Inside.of_index_none (he : e.index = none) : Inside req_size e where
  index j hj := by simp [he] at hj
  transfer seekpoint offset size heq := by simp [heq, Event.index] at he

theorem Inside.of_parr {j : Nat} (hj : j < blocks req_size) : Inside req_size (.parr j) where
  index _ hi := by
    cases hi
    exact hj
  transfer := nofun

theorem Inside.of_transfer (hb : b < blocks req_size) :
    Inside req_size (.transfer b (req_size * b) req_size) where
  index _ hi := by
    cases hi
    exact hb
  transfer _ _ _ heq := by
    cases heq
    exact ⟨rfl, rfl⟩

/-- Every access of a step is inside the array or the file. -/
theorem Inv.inside (h : Inv req_size τ s) (hm : Move mode call req_size s e s') :
    Inside req_size e := by
  cases hm with
  | exit he => exact .of_index_none he
  | fill hp hj =>
    simp only [Inv, hp] at h
    exact .of_parr (h.2.2.2.1 ▸ hj)
  | used hp hmark =>
    simp only [Inv, hp] at h
    exact .of_parr h.lt
  | unused hp hmark =>
    simp only [Inv, hp] at h
    exact .of_parr h.lt
  | transferred hp =>
    simp only [Inv, hp] at h
    exact .of_transfer h.1.lt
  | failed hp =>
    simp only [Inv, hp] at h
    exact .of_transfer h.1.lt
  | _ => exact .of_index_none rfl

/-- In every run the invariant holds, and every access was inside. -/
theorem inv_run (h : Run (StepBy (random mode call req_size)) (start mem) τ s) :
    Inv req_size τ s ∧ ∀ e ∈ τ, Inside req_size e := by
  refine h.invariant (fun τ s => Inv req_size τ s ∧ ∀ e ∈ τ, Inside req_size e)
    ⟨inv_start, nofun⟩ ?_
  intro τ s e s' _ ⟨hinv, hin⟩ ⟨a, ha⟩
  have hm := move_of_random ha
  exact ⟨hinv.move hm, List.forall_mem_cons.2 ⟨hinv.inside hm, hin⟩⟩

/-! ## The end of the loops -/

/-- Drawing `b` ends the inner loop. -/
def EndsInner (step : Bench → Answer → Option (Event × Bench)) (s : Bench) (b : Nat) : Prop :=
  ∃ e₁ s₁ e₂ s₂, step s (.rand b) = some (e₁, s₁) ∧ step s₁ .go = some (e₂, s₂) ∧
    s₂.point = .body ∧ s₂.seekpoint = b

theorem blocks_le : blocks req_size ≤ FILESIZE :=
  Nat.div_le_self FILESIZE req_size

/-- A draw of a block that was not visited ends the inner loop. -/
theorem Loop.endsInner (h : Loop req_size τ s) (hp : s.point = .draw ∨ s.point = .redraw)
    (hb : b < blocks req_size) (hnew : s.parr b = 0) :
    EndsInner (random mode call req_size) s b := by
  have hmax : b ≤ RAND_MAX := by
    have hle : blocks req_size ≤ 10485760 := blocks_le
    simp only [RAND_MAX]
    omega
  have hmod : b % s.modulus = b := by
    rw [h.modulus]
    exact Nat.mod_eq_of_lt hb
  have hdraw : random mode call req_size s (.rand b) =
      some (.rand b, { s with point := .inner, seekpoint := b }) := by
    rcases hp with hp | hp <;> simp [random, hp, hmax, hmod]
  refine ⟨_, _, .parr b, { s with point := .body, seekpoint := b }, hdraw, ?_, rfl, rfl⟩
  simp [random, hnew]

/-- While blocks are left, some draw ends the inner loop. -/
theorem Loop.exists_unused (h : Loop req_size τ s) (hc : 0 < s.count) :
    ∃ b < blocks req_size, s.parr b = 0 ∧
      (s.point = .draw ∨ s.point = .redraw → EndsInner (random mode call req_size) s b) := by
  obtain ⟨b, hb, hnew⟩ := h.draws.exists_unused List.nodup_range hc
  have hlt := List.mem_range.1 hb
  have hzero : s.parr b = 0 := by
    by_contra hne
    exact hnew ((h.marks b hlt).1 hne)
  exact ⟨b, hlt, hzero, fun hp => h.endsInner hp hlt hzero⟩

theorem Inv.loop (h : Inv req_size τ s) (hp : s.point.InLoop) : Loop req_size τ s := by
  cases hpoint : s.point with
  | outer => simpa only [Inv, hpoint] using h
  | draw =>
    simp only [Inv, hpoint] at h
    exact h.1
  | inner | redraw =>
    simp only [Inv, hpoint] at h
    exact h.toLoop
  | body =>
    simp only [Inv, hpoint] at h
    exact h.1.toLoop
  | _ => simp [hpoint, Point.InLoop] at hp

/-- What a run has done with the blocks. -/
structure VisitsOnce (step : Bench → Answer → Option (Event × Bench)) (req_size : Nat)
    (τ : List Event) (s : Bench) : Prop where
  /-- When the function returns, it has used every block, and none twice. -/
  once : s.point = .returned → (seekpoints τ).Perm (List.range (FILESIZE / req_size))
  /-- The offset is that of the block, it is an `int`, and the transfer ends in the file. -/
  inside : ∀ seekpoint offset size, .transfer seekpoint offset size ∈ τ →
    offset = req_size * seekpoint ∧ size = req_size ∧ offset ≤ INT_MAX ∧ offset + size ≤ FILESIZE
  /-- The cells used are cells of `parr`. -/
  index : ∀ e ∈ τ, ∀ j ∈ e.index, j < FILESIZE / req_size
  /-- The inner loop can end. -/
  unused : s.point.InLoop → 0 < s.count → ∃ b < FILESIZE / req_size, s.parr b = 0 ∧
    (s.point = .draw ∨ s.point = .redraw → EndsInner step s b)

/-- In every run no block was visited twice, and at the end all were. -/
theorem visitsOnce_of_run (h : Run (StepBy (random mode call req_size)) (start mem) τ s) :
    VisitsOnce (random mode call req_size) req_size τ s where
  once hp := by
    have hinv := (inv_run h).1
    simp only [Inv, hp] at hinv
    exact hinv
  inside seekpoint offset size hmem := by
    obtain ⟨hindex, htransfer⟩ := (inv_run h).2 _ hmem
    obtain ⟨rfl, rfl⟩ := htransfer _ _ _ rfl
    have hle := offset_le (hindex seekpoint rfl)
    refine ⟨rfl, rfl, ?_, hle⟩
    simp only [FILESIZE] at hle
    simp only [INT_MAX]
    omega
  index e he := ((inv_run h).2 e he).index
  unused hp hc := ((inv_run h).1.loop hp).exists_unused hc

/-- Whatever `rand` draws, for every size of the requests: in every state of a run of
`file_write_random` or `file_read_random` the transfers lie in the file and the inner loop can end,
and when the function returns it has used every block once. -/
theorem blocks_visited_once {f : Nat → Bench → Answer → Option (Event × Bench)}
    (hf : f = file_write_random ∨ f = file_read_random)
    (h : Run (StepBy (f req_size)) (start mem) τ s) : VisitsOnce (f req_size) req_size τ s := by
  rcases hf with rfl | rfl
  · exact visitsOnce_of_run h
  · exact visitsOnce_of_run h

/-- A run with two blocks, whose draws give the second one, the second one again, and the first. -/
def twoBlocks : List Answer :=
  [.memalign true, .go, .opened 3, .go, .go, .go,
    .go, .rand 7, .go, .transferred 5242880,
    .go, .rand 1, .go, .rand 4, .go, .transferred 5242880,
    .go, .go]

theorem blocks_visited_once_two : ∃ τ s, s.point = .returned ∧ seekpoints τ = [0, 1] ∧
    VisitsOnce (file_write_random 5242880) 5242880 τ s := by
  let r := (perform (file_write_random 5242880) [] (start fun _ => 1) twoBlocks).get
    (by decide +kernel)
  have hreturned : r.2.point = .returned := by decide +kernel
  have hused : seekpoints r.1 = [0, 1] := by decide +kernel
  exact ⟨r.1, r.2, hreturned, hused, blocks_visited_once (.inl rfl) (run_of_get _)⟩

end EE516.FsBench
