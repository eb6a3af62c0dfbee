import EE516.StackDriver.EmptyReads

/-!
# The clients of the stack driver

`hw1/provider.c`, `hw1/consumer.c` and `hw1/cleaner.c`. Each round of a client makes one call of the
driver at most and prints one line; the processes run side by side, so the rounds of any number of
clients come in any order. The provider pushes bytes from 0 to 126 only, so the -1 of a read, and
any other negative result that the C library would take for an error, means the empty stack here:
the lines tell what the stack holds.
-/

set_option autoImplicit false

namespace EE516.StackDriver

open EE516.Foundations

/-- What `read`, `write` and `ioctl` of the C library return for the result of the driver: the
kernel's error numbers become -1. -/
def syscallResult (ret : Int) : Int :=
  if -4095 ≤ ret ∧ ret ≤ -1 then -1 else ret

/-- A line that a client prints. -/
inductive Line where
  | providerFull
  | pushed (p s : Int)
  | consumerEmpty
  | popped (f : Int)
  | cleaned
  deriving DecidableEq, Repr

/-- The byte that the provider draws, with the results of `rand` and `time`. -/
def providerByte (rand time : Nat) : Nat :=
  let r := 60000 + rand % 250000
  time % r % 127

/-- A round of a provider. -/
def provider (s : State) (rand time : Nat) : Option (Option Line × State) := do
  let p := providerByte rand time
  let (e, s') ← hw1_write s (Int8.ofInt p)
  let k := syscallResult e.ret
  some (some (if k = FAILED then .providerFull else .pushed p k), s')

/-- A round of a consumer; what `rand` gives only sets the length of its sleep. -/
def consumer (s : State) : Option (Option Line × State) := do
  let (e, s') ← hw1_read s
  let f := syscallResult e.ret
  some (some (if f = -1 then .consumerEmpty else .popped f), s')

/-- A round of a cleaner, which cleans in one of five. -/
def cleaner (s : State) (rand : Nat) : Option (Option Line × State) :=
  if 1 + rand % 5 = 2 then do
    let (_, s') ← hw1_ioctl s 0
    some (some .cleaned, s')
  else some (none, s)

/-- The client whose round comes next, with what it draws. -/
inductive Client where
  | provider (rand time : Nat)
  | consumer
  | cleaner (rand : Nat)

/-- A round of a client: its call with the line that it prints, as one step. -/
def clientStep (s : State) : Client → Option (Option Line × State)
  | .provider rand time => provider s rand time
  | .consumer => consumer s
  | .cleaner rand => cleaner s rand

/-! ## Reading the lines -/

/-- The stack that the lines tell of, the top first; the last line comes first. -/
def toldStack : List (Option Line) → List Int
  | [] => []
  | some (.pushed p _) :: τ => p :: toldStack τ
  | some (.popped _) :: τ => (toldStack τ).tail
  | some .cleaned :: _ => []
  | some .providerFull :: τ | some .consumerEmpty :: τ | none :: τ => toldStack τ

/-- Every line is right about the stack that the lines before it tell of. -/
def Truthful : List (Option Line) → Prop
  | [] => True
  | some (.pushed p s) :: τ =>
    (0 ≤ p ∧ p ≤ 126) ∧ s = (toldStack τ).length + 1 ∧ s ≤ 256 ∧ Truthful τ
  | some .providerFull :: τ => (toldStack τ).length = 256 ∧ Truthful τ
  | some (.popped f) :: τ => (toldStack τ).head? = some f ∧ Truthful τ
  | some .consumerEmpty :: τ => toldStack τ = [] ∧ Truthful τ
  | some .cleaned :: τ | none :: τ => Truthful τ

variable {s s' : State} {l : Bytes} {τ : List (Option Line)} {e : Option Line} {rand time : Nat}

/-- The lines are right, and the driver keeps the stack that they tell of. -/
structure Shows (τ : List (Option Line)) (s : State) : Prop where
  truthful : Truthful τ
  refines : ∃ l : Bytes, Refines s l ∧ l.items.map Int8.toInt = toldStack τ
  range : ∀ x ∈ toldStack τ, 0 ≤ x ∧ x ≤ 126

theorem shows_start : Shows [] start :=
  ⟨trivial, ⟨Lifo.empty, refines_start, rfl⟩, fun _ h => absurd h List.not_mem_nil⟩

/-! ## Rounds -/

theorem providerByte_lt (rand time : Nat) : providerByte rand time < 127 :=
  Nat.mod_lt _ (by decide)

/-- The byte of a provider is not negative. -/
theorem toInt_providerByte (rand time : Nat) :
    (Int8.ofInt (providerByte rand time)).toInt = providerByte rand time := by
  have hlt := providerByte_lt rand time
  exact Int8.toInt_ofInt_of_le (by omega) (by omega)

theorem syscallResult_of_nonneg {ret : Int} (h : 0 ≤ ret) : syscallResult ret = ret :=
  if_neg (by omega)

/-- A round of a provider prints a true line. -/
theorem Shows.provider (h : Shows τ s) (rand time : Nat) :
    ∃ e s', provider s rand time = some (e, s') ∧ Shows (e :: τ) s' := by
  obtain ⟨l, hl, htold⟩ := h.refines
  obtain ⟨e, s', hwrite, hmatch, hl'⟩ := hl.write (Int8.ofInt (providerByte rand time))
  have hlength : l.items.length = (toldStack τ).length := by rw [← htold, List.length_map]
  have hret := hmatch.ret
  rw [StackDriver.provider, hwrite]
  cases hpush : l.push (Int8.ofInt (providerByte rand time)) with
  | none =>
    simp only [serve, hpush, Answer.ret] at hret hl'
    -- the stack is full, and the line says so
    have hresult : syscallResult e.ret = FAILED := by rw [hret]; rfl
    refine ⟨some .providerFull, s', by simp [hresult], ⟨?_, h.truthful⟩, ⟨l, hl', htold⟩, h.range⟩
    rw [← hlength]
    exact Lifo.push_eq_none.1 hpush
  | some l₁ =>
    simp only [serve, hpush, Answer.ret] at hret hl'
    -- the byte is on top, and the line has the true size
    have hitems := Lifo.push_eq_some.1 hpush
    have hbounded := l₁.bounded
    have hsize := congrArg List.length hitems
    rw [List.length_cons] at hsize
    have hresult : syscallResult e.ret = l₁.items.length := by
      rw [hret, syscallResult_of_nonneg (Int.natCast_nonneg _)]
    have hne : (l₁.items.length : Int) ≠ FAILED := by
      rw [FAILED]
      omega
    have hlt := providerByte_lt rand time
    refine ⟨some (.pushed (providerByte rand time) l₁.items.length), s', by simp [hresult, hne],
      ⟨by omega, by omega, by omega, h.truthful⟩, ⟨l₁, hl', ?_⟩, fun x hx => ?_⟩
    · rw [hitems, List.map_cons, toInt_providerByte, htold]
      rfl
    · rcases List.mem_cons.1 hx with rfl | hx
      · omega
      · exact h.range x hx

/-- A round of a consumer prints a true line. -/
theorem Shows.consumer (h : Shows τ s) : ∃ e s', consumer s = some (e, s') ∧ Shows (e :: τ) s' := by
  obtain ⟨l, hl, htold⟩ := h.refines
  obtain ⟨e, s', hread, hmatch, hl'⟩ := hl.read
  have hret := hmatch.ret
  rw [StackDriver.consumer, hread]
  cases hpop : l.pop with
  | none =>
    simp only [serve, hpop, Answer.ret] at hret hl'
    have hempty : toldStack τ = [] := by rw [← htold, Lifo.pop_eq_none.1 hpop]; rfl
    have hresult : syscallResult e.ret = -1 := by rw [hret]; rfl
    exact ⟨some .consumerEmpty, s', by simp [hresult], ⟨hempty, h.truthful⟩, ⟨l, hl', htold⟩,
      h.range⟩
  | some r =>
    obtain ⟨x, l₁⟩ := r
    simp only [serve, hpop, Answer.ret] at hret hl'
    have hstack : toldStack τ = x.toInt :: l₁.items.map Int8.toInt := by
      rw [← htold, Lifo.pop_eq_some.1 hpop, List.map_cons]
    -- no element of the stack looks like an error
    have hrange := h.range x.toInt (by rw [hstack]; exact List.mem_cons_self)
    have hresult : syscallResult e.ret = x.toInt := by
      rw [hret, syscallResult_of_nonneg hrange.1]
    have hne : x.toInt ≠ -1 := by omega
    refine ⟨some (.popped x.toInt), s', by simp [hresult, hne], ⟨by rw [hstack]; rfl, h.truthful⟩,
      ⟨l₁, hl', by rw [toldStack, hstack, List.tail_cons]⟩, fun y hy => h.range y ?_⟩
    rw [toldStack] at hy
    exact List.mem_of_mem_tail hy

/-- A round of a cleaner prints a true line. -/
theorem Shows.cleaner (h : Shows τ s) (rand : Nat) :
    ∃ e s', cleaner s rand = some (e, s') ∧ Shows (e :: τ) s' := by
  rw [StackDriver.cleaner]
  split
  · obtain ⟨l, hl, -⟩ := h.refines
    obtain ⟨e, s', hioctl, -, hl'⟩ := hl.ioctl 0
    rw [hioctl]
    exact ⟨some .cleaned, s', rfl, h.truthful, ⟨Lifo.empty, hl', rfl⟩,
      fun _ hx => absurd hx List.not_mem_nil⟩
  · exact ⟨none, s, rfl, h.truthful, h.refines, h.range⟩

/-- Every round prints a true line, and no call fails. -/
theorem Shows.serves (h : Shows τ s) (c : Client) :
    ∃ e s', clientStep s c = some (e, s') ∧ Shows (e :: τ) s' := by
  cases c with
  | provider rand time => exact h.provider rand time
  | consumer => exact h.consumer
  | cleaner rand => exact h.cleaner rand

/-! ## Runs -/

/-- For any number of providers, consumers and cleaners and every order of their rounds, where a
round, the system call with its `printf`, is one step: every line is right about the stack that the
earlier lines tell of (a consumer says that the stack is empty just when it is, and else pops the
byte pushed last; a provider tells the true size); the array holds just that stack; and no round
fails. -/
theorem lines_truthful (hrun : Run (StepBy clientStep) start τ s) :
    Truthful τ ∧ size s = (toldStack τ).length ∧
      s.stack.take (toldStack τ).length = (toldStack τ).reverse ∧
      ∀ c, (clientStep s c).isSome = true := by
  have h : Shows τ s := by
    refine hrun.invariant (fun τ s => Shows τ s) shows_start ?_
    rintro τ s e s' - ih ⟨c, hc⟩
    obtain ⟨e', s₁, hstep, h⟩ := ih.serves c
    rw [hc] at hstep
    cases hstep
    exact h
  obtain ⟨l, hl, htold⟩ := h.refines
  have hlength : (toldStack τ).length = l.items.length := by rw [← htold, List.length_map]
  refine ⟨h.truthful, by rw [hl.size, hlength], ?_, fun c => ?_⟩
  · rw [hlength, hl.items, htold]
  · obtain ⟨e, s', hstep, -⟩ := h.serves c
    rw [hstep]
    rfl

/-- Two bytes are pushed and popped, then the stack is empty. -/
theorem lines_truthful_five :
    ∃ (τ : List (Option Line)) (s : State), Run (StepBy clientStep) start τ s ∧
      τ = [some .consumerEmpty, some (.popped 5), some (.popped 100), some (.pushed 100 2),
        some (.pushed 5 1)] ∧ Truthful τ := by
  obtain ⟨τ, s, hrun, hlines⟩ : ∃ (τ : List (Option Line)) (s : State),
      Run (StepBy clientStep) start τ s ∧ τ = [some .consumerEmpty, some (.popped 5),
        some (.popped 100), some (.pushed 100 2), some (.pushed 5 1)] := by
    let r := (perform clientStep [] start
      [.provider 0 5, .provider 0 100, .consumer, .consumer, .consumer]).get (by decide +kernel)
    exact ⟨r.1, r.2, run_of_get _, by decide +kernel⟩
  exact ⟨τ, s, hrun, hlines, (lines_truthful hrun).1⟩

end EE516.StackDriver
