import Mathlib.Data.List.Basic
import Mathlib.Data.List.GetD

/-!
# Blocks of memory and files

A block of memory and a file are lists of bytes. `fit n` is what `n` zeroed bytes hold after a copy
into them, `overlay` is a copy into the middle of a block. `readAt` and `writeAt` are `pread` and
`pwrite` on the contents of a file: a read stops at the end of the file, a write past the end fills
the gap with zeros. Everything is known by its length and its bytes, where a byte past the end of a
list counts as 0.
-/

set_option autoImplicit false

namespace EE516.Foundations

variable {f l d d' : List UInt8} {n m off off' i : Nat}

/-- `n` bytes that were zero before `l` was copied into them. -/
def fit (n : Nat) (l : List UInt8) : List UInt8 :=
  l.take n ++ List.replicate (n - l.length) 0

/-- The block after `d` was copied to the offset. -/
def overlay (l : List UInt8) (off : Nat) (d : List UInt8) : List UInt8 :=
  l.take off ++ d ++ l.drop (off + d.length)

/-- At most `n` bytes of the file from the offset on. -/
def readAt (f : List UInt8) (off n : Nat) : List UInt8 :=
  (f.drop off).take n

/-- The file after the bytes were written at the offset. -/
def writeAt (f : List UInt8) (off : Nat) (d : List UInt8) : List UInt8 :=
  if d = [] then f else overlay (fit (max f.length (off + d.length)) f) off d

/-- Two lists of one length with the same bytes are the same. -/
theorem ext_getD (hlen : l.length = d.length) (h : ∀ i < d.length, l.getD i 0 = d.getD i 0) :
    l = d := by
  refine List.ext_getElem hlen fun i hl hd => ?_
  have hi := h i hd
  rwa [List.getD_eq_getElem _ _ hl, List.getD_eq_getElem _ _ hd] at hi

theorem getD_append :
    (l ++ d).getD i 0 = if i < l.length then l.getD i 0 else d.getD (i - l.length) 0 := by
  split
  case isTrue h => exact List.getD_append _ _ _ _ h
  case isFalse h => exact List.getD_append_right _ _ _ _ (Nat.le_of_not_lt h)

theorem getD_take : (l.take n).getD i 0 = if i < n then l.getD i 0 else 0 := by
  simp only [List.getD_eq_getElem?_getD, List.getElem?_take]
  split <;> rfl

theorem getD_drop : (l.drop n).getD i 0 = l.getD (n + i) 0 := by
  simp only [List.getD_eq_getElem?_getD, List.getElem?_drop]

theorem getD_replicate_zero : (List.replicate n (0 : UInt8)).getD i 0 = 0 := by
  simp only [List.getD_eq_getElem?_getD, List.getElem?_replicate]
  split <;> rfl

/-- Behind the end of a block the bytes count as 0. -/
theorem getD_of_le (h : l.length ≤ i) : l.getD i 0 = 0 :=
  List.getD_eq_default _ _ h

/-! ## Blocks -/

@[simp] theorem length_fit (n : Nat) (l : List UInt8) : (fit n l).length = n := by
  simp only [fit, List.length_append, List.length_take, List.length_replicate]
  omega

/-- A block of the right length is not changed. -/
theorem fit_of_length (h : l.length = n) : fit n l = l := by
  simp [fit, ← h]

theorem getD_fit : (fit n l).getD i 0 = if i < n then l.getD i 0 else 0 := by
  rw [fit, getD_append, getD_take, getD_replicate_zero, List.length_take]
  split
  case isTrue h => rfl
  case isFalse h =>
    split
    case isTrue hi => rw [getD_of_le (by omega)]
    case isFalse hi => rfl

theorem length_overlay (h : off + d.length ≤ l.length) : (overlay l off d).length = l.length := by
  simp only [overlay, List.length_append, List.length_take, List.length_drop]
  omega

/-- An overlay has its own bytes where it lies, and those of the block elsewhere. -/
theorem getD_overlay (h : off ≤ l.length) :
    (overlay l off d).getD i 0 =
      if off ≤ i ∧ i < off + d.length then d.getD (i - off) 0 else l.getD i 0 := by
  have hoff : min off l.length = off := by omega
  rw [overlay, List.append_assoc, getD_append, getD_append, getD_take, getD_drop, List.length_take,
    hoff]
  by_cases h₁ : i < off
  · rw [if_pos h₁, if_pos h₁, if_neg (by omega)]
  · rw [if_neg h₁]
    by_cases h₂ : i < off + d.length
    · rw [if_pos (by omega), if_pos (by omega)]
    · rw [if_neg (by omega), if_neg (by omega)]
      congr 1
      omega

/-! ## Files -/

theorem length_readAt : (readAt f off n).length = min n (f.length - off) := by
  simp [readAt]

/-- A read has the bytes of the file from its offset on. -/
theorem getD_readAt : (readAt f off n).getD i 0 = if i < n then f.getD (off + i) 0 else 0 := by
  rw [readAt, getD_take, getD_drop]

theorem length_writeAt (h : d ≠ []) : (writeAt f off d).length = max f.length (off + d.length) := by
  rw [writeAt, if_neg h, length_overlay, length_fit]
  rw [length_fit]
  exact Nat.le_max_right _ _

/-- A write changes the bytes of its own range only. -/
theorem getD_writeAt :
    (writeAt f off d).getD i 0 =
      if off ≤ i ∧ i < off + d.length then d.getD (i - off) 0 else f.getD i 0 := by
  rw [writeAt]
  split
  case isTrue h => rw [if_neg (by simp [h])]
  case isFalse h =>
    rw [getD_overlay (by rw [length_fit]; omega), getD_fit]
    split
    case isTrue hi => rfl
    case isFalse hi =>
      split
      case isTrue hlt => rfl
      case isFalse hlt => rw [getD_of_le (by omega)]

/-- A read that is not cut short: the file reaches that far, and these are its bytes. -/
theorem readAt_eq_iff (hd : d.length = n) :
    readAt f off n = d ↔
      (n = 0 ∨ off + n ≤ f.length) ∧ ∀ i < n, f.getD (off + i) 0 = d.getD i 0 := by
  constructor
  · intro h
    have hlen := congrArg List.length h
    rw [length_readAt, hd] at hlen
    refine ⟨by omega, fun i hi => ?_⟩
    have hb := congrArg (fun l => l.getD i 0) h
    simpa only [getD_readAt, if_pos hi] using hb
  · rintro ⟨hlen, h⟩
    apply ext_getD
    · rw [length_readAt, hd]
      omega
    · intro i hi
      rw [hd] at hi
      rw [getD_readAt, if_pos hi, h i hi]

/-- What was written at an offset is read there. -/
theorem readAt_writeAt_self : readAt (writeAt f off d) off d.length = d := by
  rw [readAt_eq_iff rfl]
  refine ⟨?_, fun i hi => ?_⟩
  · by_cases h : d = []
    · exact .inl (by simp [h])
    · exact .inr (by rw [length_writeAt h]; exact Nat.le_max_right _ _)
  · rw [getD_writeAt, if_pos (by omega)]
    congr 1
    omega

/-- A write elsewhere does not change what a whole read returns. -/
theorem readAt_writeAt_of_disjoint (hd : d.length = n) (h : readAt f off n = d)
    (hdis : off' + d'.length ≤ off ∨ off + n ≤ off') : readAt (writeAt f off' d') off n = d := by
  rw [readAt_eq_iff hd] at h ⊢
  obtain ⟨hlen, hbytes⟩ := h
  refine ⟨?_, fun i hi => ?_⟩
  · by_cases h' : d' = []
    · rwa [writeAt, if_pos h']
    · rw [length_writeAt h']
      omega
  · rw [getD_writeAt, if_neg (by omega), hbytes i hi]

/-! ## Contents -/

/-- The contents of a file, a byte at every position, after a write. -/
def patch (c : Nat → UInt8) (off : Nat) (d : List UInt8) : Nat → UInt8 := fun i =>
  if off ≤ i ∧ i < off + d.length then d.getD (i - off) 0 else c i

/-- The block has the contents from the offset on. -/
def Agrees (c : Nat → UInt8) (off : Nat) (l : List UInt8) : Prop :=
  ∀ i < l.length, l.getD i 0 = c (off + i)

variable {c : Nat → UInt8}

theorem patch_inside (h₁ : off ≤ i) (h₂ : i < off + d.length) :
    patch c off d i = d.getD (i - off) 0 :=
  if_pos ⟨h₁, h₂⟩

theorem patch_outside (h : i < off ∨ off + d.length ≤ i) : patch c off d i = c i :=
  if_neg (by omega)

/-- What was written is there. -/
theorem agrees_patch_self : Agrees (patch c off d) off d := by
  intro i hi
  rw [patch_inside (by omega) (by omega)]
  congr 1
  omega

/-- A write elsewhere leaves the contents of a block alone. -/
theorem Agrees.patch_of_disjoint (h : Agrees c off l)
    (hdis : off' + d.length ≤ off ∨ off + l.length ≤ off') : Agrees (patch c off' d) off l := by
  intro i hi
  rw [patch_outside (by omega)]
  exact h i hi

/-- What is there already is written. -/
theorem Agrees.patch_eq (h : Agrees c off l) : patch c off l = c := by
  funext i
  by_cases hi : off ≤ i ∧ i < off + l.length
  · rw [patch_inside hi.1 hi.2, h _ (by omega)]
    congr 1
    omega
  · exact patch_outside (by omega)

/-- A block that is written back after a part of it was changed. -/
theorem Agrees.patch_overlay (h : Agrees c off l) (hle : m + d.length ≤ l.length) :
    patch c off (overlay l m d) = patch c (off + m) d := by
  have hlen := length_overlay hle
  funext i
  by_cases hi : off ≤ i ∧ i < off + l.length
  · rw [patch_inside hi.1 (by omega), getD_overlay (by omega)]
    by_cases hd : m ≤ i - off ∧ i - off < m + d.length
    · rw [if_pos hd, patch_inside (by omega) (by omega)]
      congr 1
      omega
    · rw [if_neg hd, patch_outside (by omega), h _ (by omega)]
      congr 1
      omega
  · rw [patch_outside (by omega), patch_outside (by omega)]

/-- Two writes that follow one another are one write. -/
theorem patch_append : patch c off (l ++ d) = patch (patch c off l) (off + l.length) d := by
  have hlen : (l ++ d).length = l.length + d.length := List.length_append
  funext i
  by_cases h₁ : off + l.length ≤ i ∧ i < off + l.length + d.length
  · rw [patch_inside h₁.1 h₁.2, patch_inside (by omega) (by omega), getD_append, if_neg (by omega)]
    congr 1
    omega
  · have h : patch (patch c off l) (off + l.length) d i = patch c off l i :=
      patch_outside (by omega)
    rw [h]
    by_cases h₂ : off ≤ i ∧ i < off + l.length
    · rw [patch_inside h₂.1 h₂.2, patch_inside h₂.1 (by omega), getD_append, if_pos (by omega)]
    · rw [patch_outside (by omega), patch_outside (by omega)]

/-- Writes at different places may be exchanged. -/
theorem patch_comm (hdis : off + l.length ≤ off' ∨ off' + d.length ≤ off) :
    patch (patch c off l) off' d = patch (patch c off' d) off l := by
  funext i
  by_cases h₁ : off ≤ i ∧ i < off + l.length
  · have h : patch (patch c off l) off' d i = patch c off l i := patch_outside (by omega)
    rw [h, patch_inside h₁.1 h₁.2, patch_inside h₁.1 h₁.2]
  · have h : patch (patch c off' d) off l i = patch c off' d i := patch_outside (by omega)
    rw [h]
    by_cases h₂ : off' ≤ i ∧ i < off' + d.length
    · rw [patch_inside h₂.1 h₂.2, patch_inside h₂.1 h₂.2]
    · rw [patch_outside (by omega), patch_outside (by omega), patch_outside (by omega)]

theorem Agrees.append (h : Agrees c off l) (h' : Agrees c (off + l.length) d) :
    Agrees c off (l ++ d) := by
  intro i hi
  rw [List.length_append] at hi
  rw [getD_append]
  split
  case isTrue hlt => exact h i hlt
  case isFalse hlt =>
    rw [h' _ (by omega)]
    congr 1
    omega

theorem Agrees.drop (h : Agrees c off l) (n : Nat) : Agrees c (off + n) (l.drop n) := by
  intro i hi
  rw [List.length_drop] at hi
  rw [getD_drop, h _ (by omega)]
  congr 1
  omega

theorem Agrees.take (h : Agrees c off l) (n : Nat) : Agrees c off (l.take n) := by
  intro i hi
  rw [List.length_take] at hi
  rw [getD_take, if_pos (by omega)]
  exact h i (by omega)

theorem fit_eq_take (h : n ≤ l.length) : fit n l = l.take n := by
  rw [fit, Nat.sub_eq_zero_of_le h, List.replicate_zero, List.append_nil]

end EE516.Foundations
