import Mathlib.Data.List.Basic
import Mathlib.Algebra.Group.Nat.Defs
import Mathlib.Algebra.Group.Int.Defs

/-!
# The configuration of `bbfs.c` and its cipher

`loadPolicyFromFile` reads the file `ee516.conf` again and again; what it finds there is an argument
of the model. With encryption enabled a byte is written as itself plus `forAddition`, rotated to the
right by `forShift`, and is read by the inverse.
-/

set_option autoImplicit false

namespace EE516.Bbfs

/-- What `loadPolicyFromFile` reads: none when `fopen` fails, else the three numbers, with -1 in the
place of one that `fscanf` did not find. -/
abbrev Conf := Option (Int × Int × Int)

/-- The global variables that `loadPolicyFromFile` sets. -/
structure Policy where
  encryptEnabled : Bool
  forAddition : Nat
  forShift : Nat
  cachePolicy : Nat
  deriving DecidableEq, Repr

/-- Their values before the first call. -/
def Policy.start : Policy where
  encryptEnabled := false
  forAddition := 0
  forShift := 0
  cachePolicy := 0

/-- `loadPolicyFromFile`, with the three numbers of the file if they could be read. A negative
number leaves everything as it was, a cache policy above 2 counts as 0, and a file that turns the
encryption off leaves its parameters alone. -/
def Policy.loadPolicyFromFile (p : Policy) : Conf → Policy
  | none => p
  | some (firstValue, secondValue, thirdValue) =>
    if 0 ≤ firstValue ∧ 0 ≤ secondValue ∧ 0 ≤ thirdValue then
      let cachePolicy := if 2 < thirdValue then 0 else thirdValue.toNat
      if firstValue = 0 ∧ secondValue = 0 then
        { p with encryptEnabled := false, cachePolicy := cachePolicy }
      else
        { encryptEnabled := true
          forAddition := firstValue.toNat
          forShift := secondValue.toNat
          cachePolicy := cachePolicy }
    else p

/-! ## The cipher -/

/-- The bits of a `char`. -/
def CHAR_BIT : Nat := 8

/-- A rotation of the byte, to the right for a positive direction. The C code shifts `int`s and cuts
the result to a byte. -/
def applyBitshift (target : UInt8) (direction : Int) (shift size : Nat) : UInt8 :=
  let modres := shift % size
  if 0 < direction then
    UInt8.ofNat ((target.toNat >>> modres) ||| (target.toNat <<< (CHAR_BIT - modres)))
  else
    UInt8.ofNat ((target.toNat <<< modres) ||| (target.toNat >>> (CHAR_BIT - modres)))

/-- The two loops of `bb_write` over its buffer. -/
def Policy.encrypt (p : Policy) (buf : List UInt8) : List UInt8 :=
  if p.encryptEnabled then
    (buf.map fun b => b + UInt8.ofNat p.forAddition).map fun b =>
      applyBitshift b 1 p.forShift CHAR_BIT
  else buf

/-- The two loops of `bb_read` over its buffer. -/
def Policy.decrypt (p : Policy) (buf : List UInt8) : List UInt8 :=
  if p.encryptEnabled then
    (buf.map fun b => applyBitshift b (-1) p.forShift CHAR_BIT).map fun b =>
      b - UInt8.ofNat p.forAddition
  else buf

@[simp] theorem length_encrypt (p : Policy) (buf : List UInt8) :
    (p.encrypt buf).length = buf.length := by
  rw [Policy.encrypt]
  split <;> simp

@[simp] theorem length_decrypt (p : Policy) (buf : List UInt8) :
    (p.decrypt buf).length = buf.length := by
  rw [Policy.decrypt]
  split <;> simp

/-- The encryption setting: none, or the two numbers. -/
def Policy.setting (p : Policy) : Option (Nat × Nat) :=
  if p.encryptEnabled then some (p.forAddition, p.forShift) else none

/-- Two equal settings are both off, or on with the same numbers. -/
theorem setting_cases {p q : Policy} (h : p.setting = q.setting) :
    p.encryptEnabled = false ∧ q.encryptEnabled = false ∨
      p.encryptEnabled = true ∧ q.encryptEnabled = true ∧ p.forAddition = q.forAddition ∧
        p.forShift = q.forShift := by
  simp only [Policy.setting] at h
  split at h <;> split at h <;> simp_all

theorem encrypt_congr {p q : Policy} (h : p.setting = q.setting) : p.encrypt = q.encrypt := by
  funext buf
  rcases setting_cases h with ⟨hp, hq⟩ | ⟨hp, hq, ha, hs⟩
  · simp [Policy.encrypt, hp, hq]
  · simp [Policy.encrypt, hp, hq, ha, hs]

theorem decrypt_congr {p q : Policy} (h : p.setting = q.setting) : p.decrypt = q.decrypt := by
  funext buf
  rcases setting_cases h with ⟨hp, hq⟩ | ⟨hp, hq, ha, hs⟩
  · simp [Policy.decrypt, hp, hq]
  · simp [Policy.decrypt, hp, hq, ha, hs]

/-- The two rotations undo one another, for every byte and shift. -/
theorem rotate_inverse : ∀ n < 256, ∀ m < 8,
    applyBitshift (applyBitshift (UInt8.ofNat n) 1 m 8) (-1) m 8 = UInt8.ofNat n ∧
      applyBitshift (applyBitshift (UInt8.ofNat n) (-1) m 8) 1 m 8 = UInt8.ofNat n := by
  decide +kernel

/-- A shift counts up to multiples of 8 only. -/
theorem applyBitshift_mod (b : UInt8) (direction : Int) (shift : Nat) :
    applyBitshift b direction shift CHAR_BIT = applyBitshift b direction (shift % 8) 8 := by
  simp only [applyBitshift, CHAR_BIT, Nat.mod_mod]

/-- The rotation to the right undoes the one to the left. -/
theorem applyBitshift_left_right (b : UInt8) (shift : Nat) :
    applyBitshift (applyBitshift b 1 shift CHAR_BIT) (-1) shift CHAR_BIT = b := by
  have h := (rotate_inverse b.toNat b.toNat_lt (shift % 8) (Nat.mod_lt _ (by decide))).1
  rwa [UInt8.ofNat_toNat, ← applyBitshift_mod, ← applyBitshift_mod] at h

/-- The rotation to the left undoes the one to the right. -/
theorem applyBitshift_right_left (b : UInt8) (shift : Nat) :
    applyBitshift (applyBitshift b (-1) shift CHAR_BIT) 1 shift CHAR_BIT = b := by
  have h := (rotate_inverse b.toNat b.toNat_lt (shift % 8) (Nat.mod_lt _ (by decide))).2
  rwa [UInt8.ofNat_toNat, ← applyBitshift_mod, ← applyBitshift_mod] at h

/-- What was written can be read. -/
theorem decrypt_encrypt (p : Policy) (buf : List UInt8) : p.decrypt (p.encrypt buf) = buf := by
  rw [Policy.decrypt, Policy.encrypt]
  split
  case isTrue h =>
    simp only [List.map_map]
    refine (List.map_congr_left fun b _ => ?_).trans (List.map_id buf)
    simp [applyBitshift_left_right]
  case isFalse => rfl

end EE516.Bbfs
