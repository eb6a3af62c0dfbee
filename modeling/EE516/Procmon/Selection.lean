import Mathlib.Data.List.DropRight
import EE516.Procmon.Show

/-!
# The choice of the criterion

The function `procmon_proc_selection_write` of `project2/procmon.c`. The model fails (`none`) where
the code would access `sortingBuf` outside of its `BUF_SIZE` bytes. `buf` is what the user's memory
holds from the pointer on, and the kernel's table of white space is a parameter.
-/

set_option autoImplicit false

namespace EE516.Procmon

/-- The size of the buffer for the name. -/
def BUF_SIZE : Nat := 512

/-- The error number for a pointer that leads nowhere. -/
def EFAULT : Int := 14

/-- What is printed, with the text of `%s`. -/
inductive Printk where
  /-- `UNKNOWN OPERATION : %s` -/
  | unknownOperation (text : List UInt8)
  /-- `proc write : %s, currentValue : %d` -/
  | procWrite (text : List UInt8) (currentValue : Criterion)
  deriving DecidableEq, Repr

/-- The global variables. -/
structure Selection where
  sortingBuf : List UInt8
  currentValue : Criterion
  printed : List Printk
  deriving DecidableEq, Repr

/-! ## Strings in an array -/

/-- The bytes before the first 0 of the array, which must have one. -/
def stringOf : List UInt8 → Option (List UInt8)
  | [] => none
  | c :: l => if c = 0 then some [] else (stringOf l).map (c :: ·)

/-- `strlen`; none if the array ends before a NUL byte. -/
def strlen (s : List UInt8) : Option Nat :=
  (stringOf s).map List.length

/-- `strcmp(s, t) == 0` for a literal `t`, which is given without its terminator. -/
def strcmpEq : List UInt8 → List UInt8 → Option Bool
  | [], _ => none
  | c :: _, [] => some (c = 0)
  | c :: s, d :: t => if c = d then strcmpEq s t else some false

/-- `copy_from_user` of `count` bytes: the array after it, or `none` if some bytes cannot be
read. -/
def copy_from_user (dst buf : List UInt8) (count : Nat) : Option (List UInt8) :=
  if count ≤ buf.length then some (buf.take count ++ dst.drop count) else none

section

variable (isspace : UInt8 → Bool)

/-- The loop from the last character to the first one that is no white space; `n` is `i + 1`. -/
def trimLoop : Nat → List UInt8 → Option (List UInt8)
  | 0, s => some s
  | i + 1, s => do
    let c ← s[i]?
    if isspace c then trimLoop i (s.set i 0) else some s

/-- The word that selects the criterion. -/
def Criterion.word : Criterion → List UInt8
  | .pid => ['p', 'i', 'd'].map Char.toUInt8
  | .virt => ['v', 'i', 'r', 't'].map Char.toUInt8
  | .rss => ['r', 's', 's'].map Char.toUInt8
  | .io => ['i', 'o'].map Char.toUInt8

/-- The comparisons one after another: the criterion whose word it is, if any. -/
def lookupWord (s : List UInt8) : List Criterion → Option (Option Criterion)
  | [] => some none
  | c :: cs => do
    if ← strcmpEq s c.word then some (some c) else lookupWord s cs

/-- The returned value and the variables after the call. -/
def procmon_proc_selection_write (s : Selection) (buf : List UInt8) (count : Nat) :
    Option (Int × Selection) := do
  let sortingBuf := List.replicate BUF_SIZE 0
  let count := if BUF_SIZE < count then BUF_SIZE else count
  match copy_from_user sortingBuf buf count with
  | none => some (-EFAULT, { s with sortingBuf })
  | some sortingBuf =>
    let len ← strlen sortingBuf
    let sortingBuf ← trimLoop isspace len sortingBuf
    let chosen ← lookupWord sortingBuf [.pid, .virt, .rss, .io]
    let text ← stringOf sortingBuf
    let currentValue := chosen.getD s.currentValue
    let unknown := if chosen.isSome then [] else [.unknownOperation text]
    some (count, {
      sortingBuf
      currentValue
      printed := s.printed ++ unknown ++ [.procWrite text currentValue] })

/-! ## What is accepted -/

/-- The criterion that the input names: its bytes before the first 0, without the white space at
the end, are the word. -/
def named (input : List UInt8) : Option Criterion :=
  [Criterion.pid, .virt, .rss, .io].find? fun c =>
    c.word = (input.takeWhile fun b => b ≠ 0).rdropWhile isspace

/-- The call stays in the array, returns the number of bytes that it took, and sets the criterion to
the one that these bytes name, or to none. -/
def SelectsNamed (s : Selection) (buf : List UInt8) (count : Nat) : Prop :=
  ∃ s' : Selection,
    procmon_proc_selection_write isspace s buf count =
      some (((min count BUF_SIZE : Nat) : Int), s') ∧
    s'.sortingBuf.length = BUF_SIZE ∧
    s'.currentValue = (named isspace (buf.take (min count BUF_SIZE))).getD s.currentValue

/-! ## The functions on strings -/

variable {isspace} {l w t rest buf : List UInt8} {s : Selection} {count k : Nat}

theorem stringOf_eq_none (h : 0 ∉ l) : stringOf l = none := by
  induction l with
  | nil => rfl
  | cons c l ih =>
    obtain ⟨hc, hl⟩ := List.ne_and_not_mem_of_not_mem_cons h
    rw [stringOf, if_neg (Ne.symm hc), ih hl, Option.map_none]

theorem stringOf_append (h : 0 ∉ w) : stringOf (w ++ 0 :: rest) = some w := by
  induction w with
  | nil => rfl
  | cons c w ih =>
    obtain ⟨hc, hw⟩ := List.ne_and_not_mem_of_not_mem_cons h
    rw [List.cons_append, stringOf, if_neg (Ne.symm hc), ih hw, Option.map_some]

theorem strcmpEq_append (hw : 0 ∉ w) (ht : 0 ∉ t) :
    strcmpEq (w ++ 0 :: rest) t = some (decide (t = w)) := by
  induction w generalizing t with
  | nil =>
    cases t with
    | nil => rfl
    | cons d t =>
      obtain ⟨hd, -⟩ := List.ne_and_not_mem_of_not_mem_cons ht
      simp [strcmpEq, hd]
  | cons c w ih =>
    obtain ⟨hc, hw⟩ := List.ne_and_not_mem_of_not_mem_cons hw
    cases t with
    | nil => simp [strcmpEq, Ne.symm hc]
    | cons d t =>
      obtain ⟨-, ht⟩ := List.ne_and_not_mem_of_not_mem_cons ht
      -- the comparison ends where the characters differ
      rw [List.cons_append, strcmpEq]
      by_cases hcd : c = d
      · rw [if_pos hcd, ih hw ht]
        simp [hcd]
      · rw [if_neg hcd]
        simp [Ne.symm hcd]

theorem zero_notMem_word (c : Criterion) : 0 ∉ c.word := by
  cases c <;> decide

/-- The word is looked up among the criteria. -/
theorem lookupWord_append (hw : 0 ∉ w) (cs : List Criterion) :
    lookupWord (w ++ 0 :: rest) cs = some (cs.find? fun c => c.word = w) := by
  induction cs with
  | nil => rfl
  | cons c cs ih =>
    rw [lookupWord, strcmpEq_append hw (zero_notMem_word c), List.find?_cons]
    by_cases hc : c.word = w <;> simp [hc, ih]

/-- The loop puts zeros in the place of the white space at the end. -/
theorem trimLoop_append (isspace : UInt8 → Bool) (w rest : List UInt8) :
    ∃ k, trimLoop isspace w.length (w ++ rest) =
        some (w.rdropWhile isspace ++ (List.replicate k 0 ++ rest)) ∧
      (w.rdropWhile isspace).length + k = w.length := by
  induction w using List.reverseRecOn generalizing rest with
  | nil => exact ⟨0, rfl, rfl⟩
  | append_singleton w c ih =>
    rw [List.length_append, List.length_singleton, trimLoop]
    have hget : (w ++ [c] ++ rest)[w.length]? = some c := by simp
    rw [hget, Option.bind_eq_bind, Option.bind_some]
    by_cases hc : isspace c = true
    · -- one more zero, and the loop goes on before it
      obtain ⟨k, hloop, hlen⟩ := ih (0 :: rest)
      have hset : (w ++ [c] ++ rest).set w.length 0 = w ++ 0 :: rest := by simp
      refine ⟨k + 1, ?_, ?_⟩
      · rw [if_pos hc, hset, hloop, List.rdropWhile_concat_pos _ _ _ hc, List.replicate_succ']
        simp
      · rw [List.rdropWhile_concat_pos _ _ _ hc]
        omega
    · -- the loop breaks
      refine ⟨0, ?_, ?_⟩
      · rw [if_neg hc, List.rdropWhile_concat_neg _ _ _ hc]
        simp
      · rw [List.rdropWhile_concat_neg _ _ _ hc]
        simp

/-- What stands before the first 0 of the list. -/
theorem exists_terminator (h : 0 ∈ l) : ∃ rest, l = (l.takeWhile fun b => b ≠ 0) ++ 0 :: rest := by
  induction l with
  | nil => cases h
  | cons c l ih =>
    by_cases hc : c = 0
    · subst hc
      exact ⟨l, by simp⟩
    · have hl : 0 ∈ l := (List.mem_cons.1 h).resolve_left (Ne.symm hc)
      obtain ⟨rest, hrest⟩ := ih hl
      refine ⟨rest, ?_⟩
      rw [List.takeWhile_cons_of_pos (by simpa using hc), List.cons_append, ← hrest]

theorem zero_notMem_takeWhile (l : List UInt8) : 0 ∉ l.takeWhile fun b => b ≠ 0 := by
  intro h
  simpa using List.mem_takeWhile_imp h

/-- Zeros behind the input do not change what is before the first 0. -/
theorem takeWhile_append_zeros (l : List UInt8) (k : Nat) :
    ((l ++ List.replicate k 0).takeWhile fun b => b ≠ 0) = l.takeWhile fun b => b ≠ 0 := by
  induction l with
  | nil => cases k <;> simp [List.replicate_succ]
  | cons c l ih =>
    by_cases hc : c = 0
    · simp [hc]
    · simp only [List.cons_append, List.takeWhile_cons_of_pos (p := fun b : UInt8 => b ≠ 0)
        (by simpa using hc), ih]

/-! ## The call -/

/-- The array after the copy. -/
def copied (buf : List UInt8) (count : Nat) : List UInt8 :=
  buf.take (min count BUF_SIZE) ++ List.replicate (BUF_SIZE - min count BUF_SIZE) 0

theorem clipped (count : Nat) :
    (if BUF_SIZE < count then BUF_SIZE else count) = min count BUF_SIZE := by
  split <;> omega

/-- The kernel gets the first bytes of the input, and zeros behind them. -/
theorem copy_from_user_eq (h : min count BUF_SIZE ≤ buf.length) :
    copy_from_user (List.replicate BUF_SIZE 0) buf (min count BUF_SIZE) =
      some (copied buf count) := by
  rw [copy_from_user, if_pos h, List.drop_replicate]
  rfl

/-- The array has a 0 exactly when it was not filled up, or was filled up with one. -/
theorem zero_mem_copied (buf : List UInt8) (count : Nat) :
    0 ∈ copied buf count ↔ count < BUF_SIZE ∨ 0 ∈ buf.take BUF_SIZE := by
  rw [copied, List.mem_append, List.mem_replicate]
  by_cases hlt : count < BUF_SIZE
  · simp only [hlt, true_or, iff_true]
    exact .inr ⟨by omega, trivial⟩
  · rw [Nat.min_eq_right (Nat.le_of_not_lt hlt)]
    simp [hlt]

theorem length_copied (h : min count BUF_SIZE ≤ buf.length) :
    (copied buf count).length = BUF_SIZE := by
  rw [copied, List.length_append, List.length_take, List.length_replicate]
  omega

/-- An input with a 0 among the copied bytes selects what it names. -/
theorem selects_of_zero_mem (h : min count BUF_SIZE ≤ buf.length)
    (hzero : 0 ∈ copied buf count) : SelectsNamed isspace s buf count := by
  obtain ⟨rest, hrest⟩ := exists_terminator hzero
  have hlength := length_copied h
  have hw : 0 ∉ (copied buf count).takeWhile fun b => b ≠ 0 := zero_notMem_takeWhile _
  have hinput : ((copied buf count).takeWhile fun b => b ≠ 0) =
      (buf.take (min count BUF_SIZE)).takeWhile fun b => b ≠ 0 := takeWhile_append_zeros _ _
  generalize (copied buf count).takeWhile (fun b => b ≠ 0) = w at hrest hw hinput
  obtain ⟨k, htrim, hk⟩ := trimLoop_append isspace w (0 :: rest)
  have hword : 0 ∉ w.rdropWhile isspace := fun hm => hw ((List.rdropWhile_prefix _ _).subset hm)
  -- the first of the zeros ends the word
  obtain ⟨tail, htail⟩ : ∃ tail, List.replicate k (0 : UInt8) ++ 0 :: rest = 0 :: tail := by
    cases k with
    | zero => exact ⟨rest, rfl⟩
    | succ k => exact ⟨_, rfl⟩
  have hstrlen : strlen (copied buf count) = some w.length := by
    rw [strlen, hrest, stringOf_append hw, Option.map_some]
  have hlen := congrArg List.length htail
  rw [htail] at htrim
  rw [hrest] at hlength hstrlen
  simp only [List.length_append, List.length_cons, List.length_replicate] at hlength hlen
  simp only [SelectsNamed, procmon_proc_selection_write, clipped, copy_from_user_eq h, hrest,
    hstrlen, Option.bind_eq_bind, Option.bind_some, htrim, lookupWord_append hword,
    stringOf_append hword]
  refine ⟨_, rfl, ?_, ?_⟩
  · simp only [List.length_append, List.length_cons]
    omega
  · rw [named, hinput]

/-- Without a terminator the length runs on behind the array. -/
theorem write_eq_none (h : min count BUF_SIZE ≤ buf.length) (hzero : 0 ∉ copied buf count) :
    procmon_proc_selection_write isspace s buf count = none := by
  simp only [procmon_proc_selection_write, clipped, copy_from_user_eq h, strlen,
    stringOf_eq_none hzero, Option.map_none, Option.bind_eq_bind, Option.bind_none]

/-- The call does what it is for exactly when it leaves room for the terminator or brings one. -/
theorem selects_named_iff (isspace : UInt8 → Bool) (s : Selection) (buf : List UInt8) (count : Nat)
    (h : min count BUF_SIZE ≤ buf.length) :
    SelectsNamed isspace s buf count ↔ count < BUF_SIZE ∨ 0 ∈ buf.take BUF_SIZE := by
  rw [← zero_mem_copied buf count]
  constructor
  · rintro ⟨s', hs', -⟩
    by_contra hzero
    rw [write_eq_none h hzero] at hs'
    cases hs'
  · exact selects_of_zero_mem h

/-- The kernel's table: the control characters from tab to carriage return, the blank, and the
Latin-1 blank that does not break. -/
def kernelSpace (c : UInt8) : Bool :=
  9 ≤ c && c ≤ 13 || c = 32 || c = 160

/-- The variables before the first call. -/
def initialSelection : Selection where
  sortingBuf := List.replicate BUF_SIZE 0
  currentValue := .pid
  printed := []

/-- `echo rss` writes the word and a line feed. -/
theorem selects_named_iff_rss :
    SelectsNamed kernelSpace initialSelection [114, 115, 115, 10] 4 ∧
      named kernelSpace [114, 115, 115, 10] = some .rss :=
  ⟨(selects_named_iff kernelSpace initialSelection [114, 115, 115, 10] 4 (by decide)).2
    (.inl (by decide)), by decide⟩

/-- A full array of letters. -/
theorem selection_overrun :
    ¬ ∀ (isspace : UInt8 → Bool) (s : Selection) (buf : List UInt8) (count : Nat),
      min count BUF_SIZE ≤ buf.length → SelectsNamed isspace s buf count := by
  intro hall
  obtain ⟨s', hs', -⟩ := hall kernelSpace initialSelection (List.replicate BUF_SIZE 97) BUF_SIZE
    (by rw [List.length_replicate, Nat.min_self])
  have hnone : procmon_proc_selection_write kernelSpace initialSelection
      (List.replicate BUF_SIZE 97) BUF_SIZE = none := by
    decide +kernel
  rw [hnone] at hs'
  cases hs'

end

end EE516.Procmon
