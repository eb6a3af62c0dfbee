import EE516.Bbfs.Calls
import EE516.Bbfs.Lookup

/-!
# Short and failed reads

Without the cache `bb_read` returns what `pread` returns: the number of bytes up to the end of the
file, or an error. With the cache each of the branches returns the size of the request and looks at
no result of `pread`.
-/

set_option autoImplicit false

namespace EE516.Bbfs

open Foundations

/-! ## Reads on a device that fails -/

/-- The error number of each `pread` (descriptor, size, offset) that fails though the file is open
for reading. -/
abbrev Fault := Int → Nat → Int → Option Nat

variable {s : State} {fd : Int} {env env₀ : Env} {offset size : Nat} {f : OpenFile} {fault : Fault}

/-- The bytes that `pread` stores, or the error number, where the device may fail. -/
def Disk.preadOn (d : Disk) (fault : Fault) (fd : Int) (size : Nat) (offset : Int) :
    Except Int (List UInt8) :=
  match d.pread fd size offset, fault fd size offset with
  | .ok _, some errno => .error errno
  | result, _ => result

/-- A zeroed block of `size` bytes after a `pread` into it, whose result is not looked at. -/
def State.preadBlockOn (fault : Fault) (s : State) (fd : Int) (size : Nat) (offset : Int) :
    List UInt8 :=
  match s.disk.preadOn fault fd size offset with
  | .ok buf => fit size buf
  | .error _ => fit size []

/-- `bb_read` on a device that may fail. -/
def State.bb_readOn (s : State) (fault : Fault) (env : Env) (fd : Int) (size offset : Nat) :
    Result × State :=
  let s := s.loadPolicyFromFile env.conf
  if s.policy.cachePolicy ≠ 0 ∧ size = MAX_CHUNK_SIZE then
    let (buf, s) := s.cachedReadWith (State.preadBlockOn fault) env fd size offset
    ({ ret := size, buf := s.policy.decrypt buf }, s)
  else
    let s' := s.record (.pread fd size offset)
    match s.disk.preadOn fault fd size offset with
    | .ok buf => ({ ret := buf.length, buf := s.policy.decrypt buf }, s')
    | .error errno => ({ ret := -errno, buf := [] }, s')

/-- Without a failure of the device it is `bb_read`. -/
theorem bb_readOn_none :
    s.bb_readOn (fun _ _ _ => none) env fd size offset = s.bb_read env fd size offset := by
  have hread : ∀ (d : Disk) (fd : Int) (size : Nat) (offset : Int),
      d.preadOn (fun _ _ _ => none) fd size offset = d.pread fd size offset := by
    intro d fd size offset
    rw [Disk.preadOn]
    split
    · next h => cases h
    · rfl
  have hblock : State.preadBlockOn (fun _ _ _ => none) = State.preadBlock := by
    funext s fd size offset
    rw [State.preadBlockOn, hread]
    rfl
  rw [State.bb_readOn, State.bb_read, hblock]
  simp only [hread]
  rfl

/-! ## The returned value -/

/-- Nothing of the request is cached. -/
def NothingCached (s : State) (fd : Int) (offset : Nat) : Prop :=
  ¬ Resident s fd (chunkStart offset) ∧
    (offset % MAX_CHUNK_SIZE ≠ 0 → ¬ Resident s fd (chunkStart offset + MAX_CHUNK_SIZE))

/-- How much is read where nothing of the request is cached, from the start of its first chunk:
one chunk if the request is aligned and two otherwise. -/
def missSize (offset : Nat) : Nat :=
  if offset % MAX_CHUNK_SIZE = 0 then MAX_CHUNK_SIZE else 2 * MAX_CHUNK_SIZE

/-- The read in `env` returns what the one in `env₀` returns; where nothing of the request is cached
and the `pread` that it makes fails, it returns the error and adds nothing. -/
def ReturnsAvailable (s : State) (fault : Fault) (env env₀ : Env) (fd : Int) (offset : Nat) :
    Prop :=
  (s.bb_readOn fault env fd MAX_CHUNK_SIZE offset).1.ret =
      (s.bb_readOn fault env₀ fd MAX_CHUNK_SIZE offset).1.ret ∧
    ∀ errno, NothingCached s fd offset →
      s.disk.preadOn fault fd (missSize offset) (chunkStart offset) = .error errno →
      (s.bb_readOn fault env fd MAX_CHUNK_SIZE offset).1.ret = -errno ∧
        (s.bb_readOn fault env fd MAX_CHUNK_SIZE offset).2.list = s.list

/-- A read of a file that is open for reading fails only if the device does. -/
theorem preadOn_open {start : Int} (hf : s.disk.fds fd = some f) (hr : f.readable = true)
    (hstart : 0 ≤ start) :
    s.disk.preadOn fault fd size start =
      match fault fd size start with
      | some errno => .error errno
      | none => .ok (readAt (s.disk.files f.ino) start.toNat size) := by
  have hread : s.disk.pread fd size start =
      .ok (readAt (s.disk.files f.ino) start.toNat size) := by
    rw [Disk.pread, if_neg (by omega), hf]
    simp only [hr, if_true]
  rw [Disk.preadOn, hread]
  cases fault fd size start <;> rfl

/-- A file that is not open for reading gives an error. -/
theorem preadOn_fails (h : ¬ ∃ f, s.disk.fds fd = some f ∧ f.readable = true) :
    s.disk.preadOn fault fd size offset = .error EBADF := by
  have hread : s.disk.pread fd size offset = .error EBADF := by
    rw [Disk.pread, if_neg (by omega)]
    cases hf : s.disk.fds fd with
    | none => rfl
    | some f =>
      have hr : f.readable ≠ true := fun hr => h ⟨f, hf, hr⟩
      simp only [hr]
      rfl
  rw [Disk.preadOn, hread]

/-- Without the cache, what `pread` says. -/
theorem ret_plain (h₀ : (s.loadPolicyFromFile env₀.conf).policy.cachePolicy = 0) :
    (s.bb_readOn fault env₀ fd size offset).1.ret =
      match s.disk.preadOn fault fd size offset with
      | .ok buf => (buf.length : Int)
      | .error errno => -errno := by
  rw [State.bb_readOn, if_neg (by simp [h₀])]
  simp only [State.loadPolicyFromFile]
  cases s.disk.preadOn fault fd size offset <;> rfl

/-- The size of the request, whatever the file has. -/
theorem ret_cached (hc : (s.loadPolicyFromFile env.conf).policy.cachePolicy ≠ 0) :
    (s.bb_readOn fault env fd MAX_CHUNK_SIZE offset).1.ret = (MAX_CHUNK_SIZE : Nat) := by
  rw [State.bb_readOn]
  exact congrArg (fun r : Result × State => r.1.ret) (if_pos ⟨hc, rfl⟩)

theorem chunkStart_nonneg (offset : Nat) : 0 ≤ chunkStart offset := by
  have hle := Nat.mod_le offset MAX_CHUNK_SIZE
  rw [chunkStart]
  omega

/-- Of a file that is open for reading, the cached read is right exactly when the whole request lies
in it and no `pread` that counts fails. -/
theorem returnsAvailable_open_iff (hf : s.disk.fds fd = some f) (hr : f.readable = true)
    (hc : (s.loadPolicyFromFile env.conf).policy.cachePolicy ≠ 0)
    (h₀ : (s.loadPolicyFromFile env₀.conf).policy.cachePolicy = 0) :
    ReturnsAvailable s fault env env₀ fd offset ↔
      offset + MAX_CHUNK_SIZE ≤ (s.disk.files f.ino).length ∧
        fault fd MAX_CHUNK_SIZE offset = none ∧
        (NothingCached s fd offset → fault fd (missSize offset) (chunkStart offset) = none) := by
  have hcached := @ret_cached s fd env offset fault hc
  have hplain := @ret_plain s fd env₀ offset MAX_CHUNK_SIZE fault h₀
  have hmissed := @preadOn_open s fd (missSize offset) f fault _ hf hr (chunkStart_nonneg offset)
  rw [preadOn_open hf hr (Int.natCast_nonneg offset)] at hplain
  constructor
  · rintro ⟨hret, hfails⟩
    rw [hcached, hplain] at hret
    cases hfault : fault fd MAX_CHUNK_SIZE offset with
    | some errno =>
      rw [hfault] at hret
      simp only [MAX_CHUNK_SIZE] at hret
      omega
    | none =>
      rw [hfault] at hret
      simp only [length_readAt, Int.toNat_natCast] at hret
      refine ⟨?_, rfl, fun hnone => ?_⟩
      · simp only [MAX_CHUNK_SIZE] at *
        omega
      · cases hmiss : fault fd (missSize offset) (chunkStart offset) with
        | none => rfl
        | some errno =>
          -- the failed read would have to be returned
          rw [hmiss] at hmissed
          have herr := (hfails errno hnone hmissed).1
          rw [hcached] at herr
          simp only [MAX_CHUNK_SIZE] at herr
          omega
  · rintro ⟨hle, hfault, hmiss⟩
    refine ⟨?_, fun errno hnone herr => ?_⟩
    · rw [hcached, hplain, hfault]
      simp only [length_readAt, Int.toNat_natCast]
      rw [Nat.min_eq_left (by omega)]
    · rw [hmissed, hmiss hnone] at herr
      cases herr

/-- Of a file that is not open for reading, the cached read is never right. -/
theorem not_returnsAvailable (h : ¬ ∃ f, s.disk.fds fd = some f ∧ f.readable = true)
    (hc : (s.loadPolicyFromFile env.conf).policy.cachePolicy ≠ 0)
    (h₀ : (s.loadPolicyFromFile env₀.conf).policy.cachePolicy = 0) :
    ¬ ReturnsAvailable s fault env env₀ fd offset := by
  rintro ⟨hret, -⟩
  rw [ret_cached hc, ret_plain h₀, preadOn_fails h] at hret
  exact absurd hret (by decide)

/-- The cached read is right exactly when the whole request lies in a file that can be read and the
device fails neither on the request nor on what is read for it where nothing is cached. -/
theorem returns_available_iff (s : State) (fault : Fault) (env env₀ : Env) (fd : Int)
    (offset : Nat)
    (hc : (s.loadPolicyFromFile env.conf).policy.cachePolicy = 1 ∨
      (s.loadPolicyFromFile env.conf).policy.cachePolicy = 2)
    (h₀ : (s.loadPolicyFromFile env₀.conf).policy.cachePolicy = 0) :
    ReturnsAvailable s fault env env₀ fd offset ↔
      (∃ f, s.disk.fds fd = some f ∧ f.readable = true ∧
        offset + MAX_CHUNK_SIZE ≤ (s.disk.files f.ino).length) ∧
      fault fd MAX_CHUNK_SIZE offset = none ∧
      (NothingCached s fd offset → fault fd (missSize offset) (chunkStart offset) = none) := by
  have hc' : (s.loadPolicyFromFile env.conf).policy.cachePolicy ≠ 0 := by omega
  constructor
  · intro h
    obtain ⟨f, hf, hr⟩ : ∃ f, s.disk.fds fd = some f ∧ f.readable = true := by
      by_contra hopen
      exact not_returnsAvailable hopen hc' h₀ h
    obtain ⟨hle, hfaults⟩ := (returnsAvailable_open_iff hf hr hc' h₀).1 h
    exact ⟨⟨f, hf, hr, hle⟩, hfaults⟩
  · rintro ⟨⟨f, hf, hr, hle⟩, hfaults⟩
    exact (returnsAvailable_open_iff hf hr hc' h₀).2 ⟨hle, hfaults⟩

/-- A file of one chunk is read from its start. -/
theorem returns_available_iff_chunk :
    ReturnsAvailable (mount (oneFile (List.replicate MAX_CHUNK_SIZE 7))) (fun _ _ _ => none)
      (plainEnv 1) (plainEnv 0) 3 0 :=
  (returns_available_iff _ _ _ _ _ _ (by decide) (by decide)).2
    ⟨⟨⟨0, true, true⟩, rfl, rfl, by simp [mount, oneFile]⟩, rfl, fun _ => rfl⟩

/-- The buffers of the file are its chunks, with zeros behind its end. -/
def Padded (s : State) (fd : Int) : Prop :=
  ∀ f, s.disk.fds fd = some f → ∀ b ∈ s.list, b.fd = fd →
    b.buf = .ofBytes (readAt (s.disk.files f.ino) b.fromOffset.toNat MAX_CHUNK_SIZE)

/-- An empty file is read, of which nothing is cached. -/
theorem read_past_the_end :
    ¬ ∀ (s : State) (fault : Fault) (env env₀ : Env) (fd : Int) (offset : Nat),
      offset < 2 ^ 31 - 16384 → Padded s fd →
      (s.loadPolicyFromFile env.conf).policy.cachePolicy = 1 ∨
        (s.loadPolicyFromFile env.conf).policy.cachePolicy = 2 →
      (s.loadPolicyFromFile env₀.conf).policy.cachePolicy = 0 →
      ReturnsAvailable s fault env env₀ fd offset := by
  intro hall
  obtain ⟨hret, -⟩ := hall (mount (oneFile [])) (fun _ _ _ => none) (plainEnv 1) (plainEnv 0) 3 0
    (by decide) (fun _ _ _ hb => nomatch hb) (by decide) (by decide)
  exact absurd hret (by decide +kernel)

end EE516.Bbfs
