import EE516.Bbfs.Policy

/-!
# The cipher loops of `bbfs.c` on C's own types

`Policy.encrypt` and `Policy.decrypt` work on bytes as such. The source works on a `char *`: a byte
is a signed `char` that is promoted to `int` and meets an `unsigned int` in the addition, and
becomes an `unsigned char` whose promotion is shifted in the rotation; each result is cut to 8 bits
when it is stored. The loops here do this step by step, and both pairs of loops cancel each other.
-/

set_option autoImplicit false

namespace EE516.Bbfs.Cipher

/-- The value of a `char` in an operation with an `unsigned int`: an `int` with the sign of the
`char` first, and then unsigned. -/
def promote (c : Int8) : UInt32 :=
  c.toInt32.toUInt32

/-- An `unsigned int` that is stored in a `char`. -/
def store (x : UInt32) : Int8 :=
  x.toUInt8.toInt8

/-- `applyBitshift` of `unsigned char target` with `int` shifts. `sizeof(target)*CHAR_BIT` is 8. -/
def applyBitshift (target : UInt8) (direction shift size : Int32) : UInt8 :=
  let modres := shift % size
  let promoted := target.toUInt32.toInt32
  if 0 < direction then
    ((promoted >>> modres) ||| (promoted <<< (8 - modres))).toUInt32.toUInt8
  else
    ((promoted <<< modres) ||| (promoted >>> (8 - modres))).toUInt32.toUInt8

/-- `for(i=0;i<len;i++) buf[i] = f(buf[i]);` -/
def forEach (len : Nat) (f : Int8 → Int8) (buf : List Int8) : List Int8 :=
  (List.range len).foldl (fun buf i => buf.modify i f) buf

/-- `buf[i] = buf[i] + forAddition` -/
def addByte (forAddition : UInt32) (c : Int8) : Int8 :=
  store (promote c + forAddition)

/-- `buf[i] = buf[i] - forAddition` -/
def subByte (forAddition : UInt32) (c : Int8) : Int8 :=
  store (promote c - forAddition)

/-- `buf[i] = applyBitshift(buf[i], direction, forShift, CHAR_BIT)` -/
def shiftByte (direction : Int32) (forShift : UInt32) (c : Int8) : Int8 :=
  (applyBitshift c.toUInt8 direction forShift.toInt32 8).toInt8

/-- The loops of `bb_write`. -/
def writeLoops (forAddition forShift : UInt32) (len : Nat) (buf : List Int8) : List Int8 :=
  forEach len (shiftByte 1 forShift) (forEach len (addByte forAddition) buf)

/-- The loops of `bb_read`. -/
def readLoops (forAddition forShift : UInt32) (len : Nat) (buf : List Int8) : List Int8 :=
  forEach len (subByte forAddition) (forEach len (shiftByte (-1) forShift) buf)

/-! ## The loops byte by byte -/

theorem forEach_succ (len : Nat) (f : Int8 → Int8) (buf : List Int8) :
    forEach (len + 1) f buf = (forEach len f buf).modify len f := by
  simp [forEach, List.range_succ]

/-- The loop leaves the bytes from `len` on as they are. -/
theorem getElem?_forEach (len : Nat) (f : Int8 → Int8) (buf : List Int8) (i : Nat) :
    (forEach len f buf)[i]? = if i < len then buf[i]?.map f else buf[i]? := by
  induction len with
  | zero => simp [forEach]
  | succ len ih =>
    rw [forEach_succ, List.getElem?_modify, ih]
    grind

/-- The loop over a buffer applies the operation to each byte. -/
theorem forEach_eq_map (f : Int8 → Int8) (buf : List Int8) :
    forEach buf.length f buf = buf.map f := by
  refine List.ext_getElem? fun i => ?_
  rw [getElem?_forEach, List.getElem?_map]
  split
  · rfl
  case isFalse h => simp [List.getElem?_eq_none (Nat.le_of_not_lt h)]

/-- The two loops of `bb_write` as one operation on each byte. -/
theorem writeLoops_eq_map (forAddition forShift : UInt32) (buf : List Int8) :
    writeLoops forAddition forShift buf.length buf =
      buf.map fun c => shiftByte 1 forShift (addByte forAddition c) := by
  have h := forEach_eq_map (shiftByte 1 forShift) (buf.map (addByte forAddition))
  rw [List.length_map] at h
  rw [writeLoops, forEach_eq_map, h, List.map_map]
  rfl

/-- The two loops of `bb_read` as one operation on each byte. -/
theorem readLoops_eq_map (forAddition forShift : UInt32) (buf : List Int8) :
    readLoops forAddition forShift buf.length buf =
      buf.map fun c => subByte forAddition (shiftByte (-1) forShift c) := by
  have h := forEach_eq_map (subByte forAddition) (buf.map (shiftByte (-1) forShift))
  rw [List.length_map] at h
  rw [readLoops, forEach_eq_map, h, List.map_map]
  rfl

/-! ## One byte -/

/-- The sign of the `char` is in the bytes that are cut off. -/
theorem toUInt8_promote (c : Int8) : (promote c).toUInt8 = c.toUInt8 := by
  apply UInt8.toBitVec_inj.mp
  show BitVec.setWidth 8 (BitVec.signExtend 32 c.toBitVec) = c.toBitVec
  ext i hi
  simp
  grind

/-- The addition of a `char` and an `unsigned int`, cut to a byte, is that of bytes. -/
theorem toUInt8_addByte (forAddition : UInt32) (c : Int8) :
    (addByte forAddition c).toUInt8 = c.toUInt8 + forAddition.toUInt8 := by
  rw [addByte, store, UInt8.toUInt8_toInt8, UInt32.toUInt8_add, toUInt8_promote]

/-- The subtraction of a `char` and an `unsigned int`, cut to a byte, is that of bytes. -/
theorem toUInt8_subByte (forAddition : UInt32) (c : Int8) :
    (subByte forAddition c).toUInt8 = c.toUInt8 - forAddition.toUInt8 := by
  rw [subByte, store, UInt8.toUInt8_toInt8, UInt32.toUInt8_sub, toUInt8_promote]

theorem eq_of_toUInt8_eq {c d : Int8} (h : c.toUInt8 = d.toUInt8) : c = d := by
  rw [← Int8.toInt8_toUInt8 c, h, Int8.toInt8_toUInt8]

/-- The subtraction undoes the addition. -/
theorem subByte_addByte (forAddition : UInt32) (c : Int8) :
    subByte forAddition (addByte forAddition c) = c := by
  apply eq_of_toUInt8_eq
  rw [toUInt8_subByte, toUInt8_addByte, UInt8.add_sub_cancel]

/-- The addition undoes the subtraction. -/
theorem addByte_subByte (forAddition : UInt32) (c : Int8) :
    addByte forAddition (subByte forAddition c) = c := by
  apply eq_of_toUInt8_eq
  rw [toUInt8_addByte, toUInt8_subByte, UInt8.sub_add_cancel]

/-- The remainder of a shift that is not negative: the number of places of the rotation. -/
theorem mod_eight {shift : Int32} (h : 0 ≤ shift) :
    shift % 8 = Int32.ofNat (shift.toInt.toNat % 8) := by
  apply Int32.toInt_inj.mp
  have hn : 0 ≤ shift.toInt := Int32.le_iff_toInt_le.mp h
  have hm : shift.toInt.toNat % 8 < 8 := Nat.mod_lt _ (by decide)
  rw [Int32.toInt_mod, Int32.toInt_ofNat_of_lt (by omega), Int.tmod_eq_emod_of_nonneg hn]
  show shift.toInt % 8 = _
  omega

theorem ofNat_mod_eight : ∀ m < 8, Int32.ofNat m % 8 = Int32.ofNat m := by
  decide

/-- With the promotion to `int` the rotation is the one on bytes, for every byte and shift. -/
theorem promoted_rotate : ∀ n < 256, ∀ m < 8,
    applyBitshift (UInt8.ofNat n) 1 (Int32.ofNat m) 8 = Bbfs.applyBitshift (UInt8.ofNat n) 1 m 8 ∧
      applyBitshift (UInt8.ofNat n) (-1) (Int32.ofNat m) 8 =
        Bbfs.applyBitshift (UInt8.ofNat n) (-1) m 8 := by
  decide +kernel

/-- A shift that is not negative counts up to multiples of 8 only. -/
theorem applyBitshift_rem (target : UInt8) (direction : Int32) {shift : Int32} (h : 0 ≤ shift) :
    applyBitshift target direction shift 8 =
      applyBitshift target direction (Int32.ofNat (shift.toInt.toNat % 8)) 8 := by
  have hm : shift.toInt.toNat % 8 < 8 := Nat.mod_lt _ (by decide)
  simp only [applyBitshift]
  rw [mod_eight h, ofNat_mod_eight _ hm]

/-- The shifts of the promoted byte, cut to 8 bits, are the rotation of the byte. -/
theorem applyBitshift_eq (target : UInt8) {shift : Int32} (h : 0 ≤ shift) :
    applyBitshift target 1 shift 8 = Bbfs.applyBitshift target 1 shift.toInt.toNat CHAR_BIT ∧
      applyBitshift target (-1) shift 8 =
        Bbfs.applyBitshift target (-1) shift.toInt.toNat CHAR_BIT := by
  have hm : shift.toInt.toNat % 8 < 8 := Nat.mod_lt _ (by decide)
  have hb := promoted_rotate target.toNat target.toNat_lt _ hm
  rw [UInt8.ofNat_toNat, ← applyBitshift_mod, ← applyBitshift_mod] at hb
  rw [applyBitshift_rem target 1 h, applyBitshift_rem target (-1) h]
  exact hb

/-- The rotation to the right undoes the one to the left. -/
theorem shiftByte_left_right {forShift : UInt32} (h : 0 ≤ forShift.toInt32) (c : Int8) :
    shiftByte (-1) forShift (shiftByte 1 forShift c) = c := by
  apply eq_of_toUInt8_eq
  rw [shiftByte, shiftByte, UInt8.toUInt8_toInt8, UInt8.toUInt8_toInt8,
    (applyBitshift_eq _ h).1, (applyBitshift_eq _ h).2, applyBitshift_left_right]

/-- The rotation to the left undoes the one to the right. -/
theorem shiftByte_right_left {forShift : UInt32} (h : 0 ≤ forShift.toInt32) (c : Int8) :
    shiftByte 1 forShift (shiftByte (-1) forShift c) = c := by
  apply eq_of_toUInt8_eq
  rw [shiftByte, shiftByte, UInt8.toUInt8_toInt8, UInt8.toUInt8_toInt8,
    (applyBitshift_eq _ h).1, (applyBitshift_eq _ h).2, applyBitshift_right_left]

/-! ## The loops cancel each other -/

theorem length_writeLoops (forAddition forShift : UInt32) (buf : List Int8) :
    (writeLoops forAddition forShift buf.length buf).length = buf.length := by
  rw [writeLoops_eq_map, List.length_map]

theorem length_readLoops (forAddition forShift : UInt32) (buf : List Int8) :
    (readLoops forAddition forShift buf.length buf).length = buf.length := by
  rw [readLoops_eq_map, List.length_map]

/-- Both pairs of loops give the array back that the other pair changed. -/
theorem loops_cancel (forAddition forShift : Int32) (hs : 0 ≤ forShift) (buf : List Int8) :
    readLoops forAddition.toUInt32 forShift.toUInt32 buf.length
        (writeLoops forAddition.toUInt32 forShift.toUInt32 buf.length buf) = buf ∧
      writeLoops forAddition.toUInt32 forShift.toUInt32 buf.length
        (readLoops forAddition.toUInt32 forShift.toUInt32 buf.length buf) = buf := by
  have hs' : 0 ≤ forShift.toUInt32.toInt32 := by rwa [Int32.toInt32_toUInt32]
  constructor
  · have h := readLoops_eq_map forAddition.toUInt32 forShift.toUInt32
      (writeLoops forAddition.toUInt32 forShift.toUInt32 buf.length buf)
    rw [length_writeLoops] at h
    rw [h, writeLoops_eq_map, List.map_map]
    apply List.map_id''
    intro c
    simp only [Function.comp_apply, shiftByte_left_right hs', subByte_addByte]
  · have h := writeLoops_eq_map forAddition.toUInt32 forShift.toUInt32
      (readLoops forAddition.toUInt32 forShift.toUInt32 buf.length buf)
    rw [length_readLoops] at h
    rw [h, readLoops_eq_map, List.map_map]
    apply List.map_id''
    intro c
    simp only [Function.comp_apply, shiftByte_right_left hs', addByte_subByte]

/-- A shift of more than a byte, and bytes of both signs. -/
theorem loops_cancel_three :
    (0 : Int32) ≤ 13 ∧
      readLoops 300 13 3 (writeLoops 300 13 3 [-1, 0, 65]) = [-1, 0, 65] ∧
      writeLoops 300 13 3 (readLoops 300 13 3 [-1, 0, 65]) = [-1, 0, 65] :=
  ⟨by decide, loops_cancel 300 13 (by decide) [-1, 0, 65]⟩

theorem toInt32_ofNat {n : Nat} (h : n < 2 ^ 31) :
    0 ≤ (UInt32.ofNat n).toInt32 ∧ (UInt32.ofNat n).toInt32.toInt.toNat = n := by
  have hi : (UInt32.ofNat n).toInt32 = Int32.ofNat n := by simp
  have hn : (Int32.ofNat n).toInt = n := Int32.toInt_ofNat_of_lt (by omega)
  rw [hi, Int32.le_iff_toInt_le, hn]
  exact ⟨Int.natCast_nonneg n, Int.toNat_natCast n⟩

/-- The cipher of the model is what the loops do to the bytes. -/
theorem encrypt_eq_writeLoops (p : Policy) (he : p.encryptEnabled = true)
    (hs : p.forShift < 2 ^ 31) (buf : List Int8) :
    p.encrypt (buf.map Int8.toUInt8) =
      (writeLoops (UInt32.ofNat p.forAddition) (UInt32.ofNat p.forShift) buf.length buf).map
        Int8.toUInt8 := by
  obtain ⟨hsign, hval⟩ := toInt32_ofNat hs
  rw [writeLoops_eq_map, Policy.encrypt, if_pos he, List.map_map, List.map_map, List.map_map]
  apply List.map_congr_left
  intro c _
  simp only [Function.comp_apply]
  rw [shiftByte, UInt8.toUInt8_toInt8, (applyBitshift_eq _ hsign).1, hval, toUInt8_addByte]
  simp

/-- On settings below the sign bit the decryption on bytes is that of the loops. -/
theorem decrypt_eq_readLoops (p : Policy) (he : p.encryptEnabled = true)
    (hs : p.forShift < 2 ^ 31) (buf : List Int8) :
    p.decrypt (buf.map Int8.toUInt8) =
      (readLoops (UInt32.ofNat p.forAddition) (UInt32.ofNat p.forShift) buf.length buf).map
        Int8.toUInt8 := by
  obtain ⟨hsign, hval⟩ := toInt32_ofNat hs
  rw [readLoops_eq_map, Policy.decrypt, if_pos he, List.map_map, List.map_map, List.map_map]
  apply List.map_congr_left
  intro c _
  simp only [Function.comp_apply]
  rw [toUInt8_subByte, shiftByte, UInt8.toUInt8_toInt8, (applyBitshift_eq _ hsign).2, hval]
  simp

end EE516.Bbfs.Cipher
