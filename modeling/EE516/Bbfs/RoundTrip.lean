import Mathlib.Data.List.TakeWhile
import EE516.Bbfs.Calls

/-!
# Writing and reading without the cache

With the cache policy 0 the data goes through `strncpy`, the cipher and the file and back. All of
it comes back exactly when `strncpy` copies all of it.
-/

set_option autoImplicit false

namespace EE516.Bbfs

open Foundations

variable {s : State} {fd : Int} {env env' : Env} {buf : List UInt8} {offset : Nat} {f : OpenFile}

/-- From the first NUL byte on there are NUL bytes only. -/
def EndsAtNul (buf : List UInt8) : Prop :=
  ∀ b ∈ buf.dropWhile fun b => b ≠ 0, b = 0

instance (buf : List UInt8) : Decidable (EndsAtNul buf) :=
  inferInstanceAs (Decidable (∀ b ∈ _, b = 0))

theorem endsAtNul_of_not_mem (h : 0 ∉ buf) : EndsAtNul buf := by
  have hnil : (buf.dropWhile fun b => b ≠ 0) = [] := by
    rw [List.dropWhile_eq_nil_iff]
    intro b hb
    simpa using fun h0 : b = 0 => h (h0 ▸ hb)
  intro b hb
  rw [hnil] at hb
  cases hb

/-- What `strncpy` loses: everything behind a NUL byte but more of them. -/
theorem strncpy_eq_iff : strncpy buf buf.length = buf ↔ EndsAtNul buf := by
  have hsplit := List.takeWhile_append_dropWhile (p := fun b : UInt8 => b ≠ 0) (l := buf)
  have hlen := congrArg List.length hsplit
  rw [List.length_append] at hlen
  have hcopy : strncpy buf buf.length =
      cstring buf ++ List.replicate (buf.dropWhile fun b => b ≠ 0).length 0 := by
    rw [strncpy, fit, cstring, List.take_of_length_le (by omega)]
    congr 2
    omega
  rw [hcopy]
  constructor
  · intro h
    rw [cstring] at h
    have hzero := List.append_cancel_left (h.trans hsplit.symm)
    exact (List.eq_replicate_iff.1 hzero.symm).2
  · intro h
    have hzero := List.eq_replicate_iff.2 ⟨rfl, h⟩
    rw [← hzero]
    exact hsplit

@[simp] theorem length_strncpy (buf : List UInt8) (n : Nat) : (strncpy buf n).length = n :=
  length_fit n _

/-- The same configuration once more changes nothing. -/
theorem loadPolicyFromFile_idem (p : Policy) (conf : Conf) :
    (p.loadPolicyFromFile conf).loadPolicyFromFile conf = p.loadPolicyFromFile conf := by
  rcases conf with _ | ⟨firstValue, secondValue, thirdValue⟩
  · rfl
  · simp only [Policy.loadPolicyFromFile]
    split
    case isTrue =>
      split <;> rfl
    case isFalse => rfl

/-- Without the cache a write is one `pwrite` of the encrypted copy. -/
theorem bb_write_uncached (hpol : (s.policy.loadPolicyFromFile env.conf).cachePolicy = 0)
    (hf : s.disk.fds fd = some f) (hw : f.writable = true) :
    (s.bb_write env fd buf offset).2.disk =
        { s.disk with
          files := fun i =>
            if i = f.ino then
              writeAt (s.disk.files i) offset
                ((s.policy.loadPolicyFromFile env.conf).encrypt (strncpy buf buf.length))
            else s.disk.files i } ∧
      (s.bb_write env fd buf offset).2.policy = s.policy.loadPolicyFromFile env.conf := by
  have hpw : ∀ data : List UInt8, s.disk.pwrite fd data offset =
      .ok { s.disk with
        files := fun i => if i = f.ino then writeAt (s.disk.files i) offset data
          else s.disk.files i } := by
    intro data
    rw [Disk.pwrite, if_neg (by omega), hf]
    simp only [hw, if_true, Int.toNat_natCast]
  simp only [State.bb_write, State.loadPolicyFromFile, hpol, ne_eq, not_true, false_and, if_false,
    hpw, State.pwrite, State.record, Disk.written, and_self]

/-- What a read of the range returns right after a write of it. -/
theorem bb_read_after_write (hconf : env'.conf = env.conf)
    (hpol : (s.policy.loadPolicyFromFile env.conf).cachePolicy = 0)
    (hf : s.disk.fds fd = some f) (hr : f.readable = true) (hw : f.writable = true) :
    ((s.bb_write env fd buf offset).2.bb_read env' fd buf.length offset).1 =
      { ret := buf.length, buf := strncpy buf buf.length } := by
  obtain ⟨hdisk, hpolicy⟩ := @bb_write_uncached _ _ _ buf offset _ hpol hf hw
  generalize (s.bb_write env fd buf offset).2 = s' at *
  generalize hp : s.policy.loadPolicyFromFile env.conf = p at *
  have hload : p.loadPolicyFromFile env.conf = p := by
    rw [← hp, loadPolicyFromFile_idem]
  have hread : s'.disk.pread fd buf.length offset =
      .ok (p.encrypt (strncpy buf buf.length)) := by
    rw [Disk.pread, if_neg (by omega), hdisk, hf]
    simp only [hr, if_true, Int.toNat_natCast, Except.ok.injEq]
    have hself := @readAt_writeAt_self (s.disk.files f.ino) (p.encrypt (strncpy buf buf.length))
      offset
    rwa [length_encrypt, length_strncpy] at hself
  simp only [State.bb_read, State.loadPolicyFromFile, hpolicy, hconf, hload, hpol, ne_eq, not_true,
    false_and, if_false, hread, length_encrypt, length_strncpy, decrypt_encrypt]

/-- Without the cache a read returns what was written if and only if nothing but NUL bytes follows
the first NUL byte of the data; the rest of the file stays as it was in any case. -/
theorem write_read_iff (hconf : env'.conf = env.conf)
    (hpol : (s.policy.loadPolicyFromFile env.conf).cachePolicy = 0)
    (hf : s.disk.fds fd = some f) (hr : f.readable = true) (hw : f.writable = true) :
    (((s.bb_write env fd buf offset).2.bb_read env' fd buf.length offset).1 =
        { ret := buf.length, buf := buf } ∧
      ∀ i, i < offset ∨ offset + buf.length ≤ i →
        ((s.bb_write env fd buf offset).2.disk.files f.ino).getD i 0 =
          (s.disk.files f.ino).getD i 0) ↔ EndsAtNul buf := by
  rw [bb_read_after_write hconf hpol hf hr hw, Result.mk.injEq, strncpy_eq_iff]
  refine ⟨fun h => h.1.2, fun h => ⟨⟨rfl, h⟩, fun i hi => ?_⟩⟩
  rw [(bb_write_uncached hpol hf hw).1]
  simp only [if_true]
  rw [getD_writeAt, length_encrypt, length_strncpy, if_neg (by omega)]

/-- Text and the NUL byte at its end, encrypted. -/
theorem write_read_text :
    (((mount (oneFile [9, 9])).bb_write { plainEnv 0 with conf := some (3, 5, 0) } 3 [72, 105, 0]
      1).2.bb_read { plainEnv 0 with conf := some (3, 5, 0) } 3 3 1).1 =
        { ret := 3, buf := [72, 105, 0] } :=
  ((@write_read_iff _ _ _ _ [72, 105, 0] _ ⟨0, true, true⟩ rfl rfl rfl rfl rfl).2
    (by decide +kernel)).1

/-- A byte behind a NUL byte is lost. -/
theorem write_read_loses_byte :
    ¬ ∀ (s : State) (env : Env) (fd : Int) (f : OpenFile) (buf : List UInt8) (offset : Nat),
      (s.policy.loadPolicyFromFile env.conf).cachePolicy = 0 → s.disk.fds fd = some f →
      f.readable = true → f.writable = true →
      ((s.bb_write env fd buf offset).2.bb_read env fd buf.length offset).1 =
        { ret := buf.length, buf := buf } := by
  intro h
  have hr := h (mount (oneFile [])) (plainEnv 0) 3 ⟨0, true, true⟩ [0, 1] 0 rfl rfl rfl rfl
  rw [@bb_read_after_write _ _ _ _ _ _ ⟨0, true, true⟩ rfl rfl rfl rfl rfl] at hr
  exact absurd hr (by decide)

end EE516.Bbfs
