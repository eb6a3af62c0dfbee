import EE516.Foundations.Run
import EE516.Bbfs.Buffers

/-!
# The calls of `bbfs.c`

`bb_read`, `bb_write` and `bb_release` on a state of the cache, and the machine that makes one call
after another. What a call meets outside of the program is an argument (`Env`): the configuration
at each `loadPolicyFromFile`, the random numbers, and the bytes that a read of a freed node returns.
-/

set_option autoImplicit false

namespace EE516.Bbfs

open Foundations

/-- What one call finds around it. An eviction reads the configuration and a random number; a call
adds two buffers at most. -/
structure Env where
  conf : Conf
  evict₁ : Conf × Nat
  evict₂ : Conf × Nat
  stale : List UInt8

/-- The returned value and the bytes that `bb_read` leaves in `buf`. -/
structure Result where
  ret : Int
  buf : List UInt8
  deriving DecidableEq

/-- What `%s` copies of a block: the bytes before the first 0, and no more than the block. In C it
goes on behind a block that has no 0; what it would find there is left out. -/
def cstring (l : List UInt8) : List UInt8 :=
  l.takeWhile fun b => b ≠ 0

/-- `sprintf(totalbuf, "%s%s", a, b)` into a zeroed block of two chunks, cut to that block. -/
def sprintf (a b : List UInt8) : List UInt8 :=
  fit (2 * MAX_CHUNK_SIZE) (cstring a ++ cstring b)

/-- `memcpy(buf, l + offset, size)`. -/
def slice (l : List UInt8) (offset size : Nat) : List UInt8 :=
  (l.drop offset).take size

/-- The chunk that the pointer leads to; a node that was freed holds anything. -/
def State.deref (s : State) (b : FileBuffer) (stale : List UInt8) : List UInt8 :=
  match s.list.find? fun c => c.id = b.id with
  | some c => c.buf.bytes
  | none => stale

/-- `memcpy(b->buf, buf, size)`. -/
def State.setBuf (s : State) (b : FileBuffer) (buf : List UInt8) : State :=
  { s with list := s.list.map fun c => if c.id = b.id then { c with buf := .ofBytes buf } else c }

/-- `b->dirty = 1`. -/
def State.setDirty (s : State) (b : FileBuffer) : State :=
  { s with list := s.list.map fun c => if c.id = b.id then { c with dirty := true } else c }

/-! ## `bb_read` -/

/-- The branches of `bb_read` with the cache: the bytes in `buf` before the decryption. `block` is
what a zeroed block holds after a `pread` into it, of which no branch looks at the result. -/
def State.cachedReadWith (s : State) (block : State → Int → Nat → Int → List UInt8) (env : Env)
    (fd : Int) (size offset : Nat) : List UInt8 × State :=
  let (info, s) := s.bufferHitCheck (toInt offset) size fd
  let refinedOffset := offset % MAX_CHUNK_SIZE
  match info with
  | .PERFECT_HIT firstpart => (firstpart.buf.bytes, s)
  | .PARTIAL_HIT firstpart secondpart =>
    let totalbuf := sprintf firstpart.buf.bytes secondpart.buf.bytes
    (slice totalbuf refinedOffset size, s)
  | .PARTIAL_MISS_FIRST firstpart =>
    let start := firstpart.toOffset
    let tempbuf := block s fd size start
    let s := s.record (.pread fd size start)
    let s := s.addFileBuffer env.evict₁.1 env.evict₁.2 tempbuf start (toInt (start + size)) fd
    -- the new buffer can have evicted the first part
    let totalbuf := sprintf (s.deref firstpart env.stale) tempbuf
    (slice totalbuf refinedOffset size, s)
  | .PARTIAL_MISS_SECOND secondpart =>
    -- the start of the second part itself, not of the chunk before it
    let start := toInt (secondpart.toOffset - MAX_CHUNK_SIZE)
    let tempbuf := block s fd size start
    let s := s.record (.pread fd size start)
    let s := s.addFileBuffer env.evict₁.1 env.evict₁.2 tempbuf start (toInt (start + size)) fd
    let totalbuf := sprintf tempbuf (s.deref secondpart env.stale)
    (slice totalbuf refinedOffset size, s)
  | .PERFECT_MISS =>
    let p := offset % MAX_CHUNK_SIZE
    if p = 0 then
      let start := toInt offset
      let tempbuf := block s fd size start
      let s := s.record (.pread fd size start)
      let s := s.addFileBuffer env.evict₁.1 env.evict₁.2 tempbuf start (toInt (start + size)) fd
      (slice tempbuf 0 size, s)
    else
      let start := toInt (offset - p)
      let tempbuf := block s fd (2 * size) start
      let s := s.record (.pread fd (2 * size) start)
      let s := s.addFileBuffer env.evict₁.1 env.evict₁.2 tempbuf start (toInt (start + size)) fd
      let s := s.addFileBuffer env.evict₂.1 env.evict₂.2 (tempbuf.drop size) (toInt (start + size))
        (toInt (start + size + size)) fd
      (slice tempbuf refinedOffset size, s)

/-- The branches of `bb_read` with the cache, on a device that does not fail. -/
def State.cachedRead (s : State) (env : Env) (fd : Int) (size offset : Nat) : List UInt8 × State :=
  s.cachedReadWith State.preadBlock env fd size offset

/-- The decryption comes after the cache, under the policy that was read last. -/
def State.bb_read (s : State) (env : Env) (fd : Int) (size offset : Nat) : Result × State :=
  let s := s.loadPolicyFromFile env.conf
  if s.policy.cachePolicy ≠ 0 ∧ size = MAX_CHUNK_SIZE then
    let (buf, s) := s.cachedRead env fd size offset
    ({ ret := size, buf := s.policy.decrypt buf }, s)
  else
    let s' := s.record (.pread fd size offset)
    match s.disk.pread fd size offset with
    | .ok buf => ({ ret := buf.length, buf := s.policy.decrypt buf }, s')
    | .error errno => ({ ret := -errno, buf := [] }, s')

section BbRead

variable {s : State} {env : Env} {fd : Int} {size offset : Nat}

/-- A read of one chunk under a policy other than 0 uses the cache. -/
theorem bb_read_cached (hpol : (s.loadPolicyFromFile env.conf).policy.cachePolicy ≠ 0) :
    s.bb_read env fd MAX_CHUNK_SIZE offset =
      let (buf, s') := (s.loadPolicyFromFile env.conf).cachedRead env fd MAX_CHUNK_SIZE offset
      ({ ret := MAX_CHUNK_SIZE, buf := s'.policy.decrypt buf }, s') := by
  rw [State.bb_read]
  exact if_pos ⟨hpol, rfl⟩

/-- Whatever `pread` says, it leaves the state. -/
theorem bb_read_plain
    (h : ¬ ((s.loadPolicyFromFile env.conf).policy.cachePolicy ≠ 0 ∧ size = MAX_CHUNK_SIZE)) :
    (s.bb_read env fd size offset).2 =
      (s.loadPolicyFromFile env.conf).record (.pread fd size offset) := by
  rw [State.bb_read, if_neg h]
  dsimp only
  split <;> rfl

/-- The state after a read, with the cache or without. -/
theorem bb_read_cases {P : State → Prop}
    (hplain : P ((s.loadPolicyFromFile env.conf).record (.pread fd size offset)))
    (hcached : (s.loadPolicyFromFile env.conf).policy.cachePolicy ≠ 0 → size = MAX_CHUNK_SIZE →
      P ((s.loadPolicyFromFile env.conf).cachedRead env fd MAX_CHUNK_SIZE offset).2) :
    P (s.bb_read env fd size offset).2 := by
  by_cases huse : (s.loadPolicyFromFile env.conf).policy.cachePolicy ≠ 0 ∧ size = MAX_CHUNK_SIZE
  · obtain ⟨hpol, rfl⟩ := huse
    rw [bb_read_cached hpol]
    exact hcached hpol rfl
  · rw [bb_read_plain huse]
    exact hplain

end BbRead

/-! ## `bb_write` -/

/-- The branches of `bb_write` with the cache, on the encrypted bytes. -/
def State.cachedWrite (s : State) (env : Env) (fd : Int) (intermediateBuf : List UInt8)
    (size offset : Nat) : State :=
  let (info, s) := s.bufferHitCheck (toInt offset) size fd
  let refinedOffset := offset % MAX_CHUNK_SIZE
  match info with
  | .PERFECT_HIT firstpart => (s.setBuf firstpart intermediateBuf).setDirty firstpart
  | .PARTIAL_HIT firstpart secondpart =>
    let totalbuf := overlay (sprintf firstpart.buf.bytes secondpart.buf.bytes) refinedOffset
      intermediateBuf
    let s := s.setBuf firstpart totalbuf
    let s := s.setBuf secondpart (totalbuf.drop MAX_CHUNK_SIZE)
    (s.setDirty firstpart).setDirty secondpart
  | .PARTIAL_MISS_FIRST firstpart =>
    let start := firstpart.toOffset
    let tempbuf := s.preadBlock fd size start
    let s := s.record (.pread fd size start)
    let totalbuf := overlay (sprintf firstpart.buf.bytes tempbuf) refinedOffset intermediateBuf
    let s := (s.setBuf firstpart totalbuf).setDirty firstpart
    -- one chunk behind the one that was read
    s.addFileBuffer env.evict₁.1 env.evict₁.2 (totalbuf.drop size) (toInt (start + size))
      (toInt (start + size + size)) fd
  | .PARTIAL_MISS_SECOND secondpart =>
    let start := toInt (secondpart.fromOffset - MAX_CHUNK_SIZE)
    let tempbuf := s.preadBlock fd size start
    let s := s.record (.pread fd size start)
    let totalbuf := overlay (sprintf tempbuf secondpart.buf.bytes) refinedOffset intermediateBuf
    -- the dirty flag stays as it is
    let s := s.setBuf secondpart (totalbuf.drop size)
    s.addFileBuffer env.evict₁.1 env.evict₁.2 totalbuf start (toInt (start + size)) fd
  | .PERFECT_MISS =>
    let p := offset % MAX_CHUNK_SIZE
    if p = 0 then
      let start := toInt offset
      let tempbuf := s.preadBlock fd size start
      let s := s.record (.pread fd size start)
      let tempbuf := overlay tempbuf 0 intermediateBuf
      -- a new buffer is not dirty
      s.addFileBuffer env.evict₁.1 env.evict₁.2 tempbuf start (toInt (start + size)) fd
    else
      let start := toInt (offset - p)
      let tempbuf := s.preadBlock fd (2 * size) start
      let s := s.record (.pread fd (2 * size) start)
      let tempbuf := overlay tempbuf refinedOffset intermediateBuf
      let s := s.addFileBuffer env.evict₁.1 env.evict₁.2 tempbuf start (toInt (start + size)) fd
      s.addFileBuffer env.evict₂.1 env.evict₂.2 (tempbuf.drop size) (toInt (start + size))
        (toInt (start + size + size)) fd

/-- `strncpy` stops at the first 0 and fills the block up with zeros. -/
def strncpy (buf : List UInt8) (size : Nat) : List UInt8 :=
  fit size (cstring buf)

/-- The encryption comes before the cache, and the bytes go to the cache or to the file. -/
def State.bb_write (s : State) (env : Env) (fd : Int) (buf : List UInt8) (offset : Nat) :
    Result × State :=
  let size := buf.length
  let s := s.loadPolicyFromFile env.conf
  let intermediateBuf := s.policy.encrypt (strncpy buf size)
  if s.policy.cachePolicy ≠ 0 ∧ size = MAX_CHUNK_SIZE then
    ({ ret := size, buf := [] }, s.cachedWrite env fd intermediateBuf size offset)
  else
    let s' := s.pwrite fd intermediateBuf offset
    match s.disk.pwrite fd intermediateBuf offset with
    | .ok _ => ({ ret := size, buf := [] }, s')
    | .error errno => ({ ret := -errno, buf := [] }, s')

section BbWrite

variable {s : State} {env : Env} {fd : Int} {buf : List UInt8} {offset : Nat}

/-- A write of one chunk under a policy other than 0 uses the cache. -/
theorem bb_write_cached (hpol : (s.loadPolicyFromFile env.conf).policy.cachePolicy ≠ 0)
    (hbuf : buf.length = MAX_CHUNK_SIZE) :
    s.bb_write env fd buf offset =
      ({ ret := MAX_CHUNK_SIZE, buf := [] },
        (s.loadPolicyFromFile env.conf).cachedWrite env fd
          ((s.loadPolicyFromFile env.conf).policy.encrypt (strncpy buf buf.length)) MAX_CHUNK_SIZE
          offset) := by
  rw [State.bb_write]
  dsimp only
  rw [if_pos ⟨hpol, hbuf⟩, hbuf]

/-- Any other write goes to the file. -/
theorem bb_write_plain
    (h : ¬ ((s.loadPolicyFromFile env.conf).policy.cachePolicy ≠ 0 ∧
      buf.length = MAX_CHUNK_SIZE)) :
    (s.bb_write env fd buf offset).2 =
      (s.loadPolicyFromFile env.conf).pwrite fd
        ((s.loadPolicyFromFile env.conf).policy.encrypt (strncpy buf buf.length)) offset := by
  rw [State.bb_write]
  dsimp only
  rw [if_neg h]
  split <;> rfl

/-- The state after a write, with the cache or without. -/
theorem bb_write_cases {P : State → Prop}
    (hplain : P ((s.loadPolicyFromFile env.conf).pwrite fd
      ((s.loadPolicyFromFile env.conf).policy.encrypt (strncpy buf buf.length)) offset))
    (hcached : (s.loadPolicyFromFile env.conf).policy.cachePolicy ≠ 0 →
      buf.length = MAX_CHUNK_SIZE →
      P ((s.loadPolicyFromFile env.conf).cachedWrite env fd
        ((s.loadPolicyFromFile env.conf).policy.encrypt (strncpy buf buf.length)) MAX_CHUNK_SIZE
        offset)) :
    P (s.bb_write env fd buf offset).2 := by
  by_cases huse : (s.loadPolicyFromFile env.conf).policy.cachePolicy ≠ 0 ∧
      buf.length = MAX_CHUNK_SIZE
  · rw [bb_write_cached huse.1 huse.2]
    exact hcached huse.1 huse.2
  · rw [bb_write_plain huse]
    exact hplain

end BbWrite

/-! ## `bb_release` -/

/-- All buffers are released, of whatever file, and the file is closed. -/
def State.bb_release (s : State) (fd : Int) : Result × State :=
  let s := s.releaseFileBuffer fd
  ({ ret := if (s.disk.fds fd).isSome then 0 else -1, buf := [] },
    { s with disk := s.disk.close fd })

/-! ## The machine -/

/-- A call with its arguments; `write` has the bytes in place of `buf` and `size`. -/
inductive Call where
  | read (fd : Int) (size offset : Nat)
  | write (fd : Int) (buf : List UInt8) (offset : Nat)
  | release (fd : Int)
  deriving DecidableEq

/-- A call that was made: the state it found, and what it returned. -/
structure Event where
  before : State
  env : Env
  call : Call
  result : Result

/-- What a call returns, and the state behind it. -/
def State.perform (s : State) (env : Env) : Call → Result × State
  | .read fd size offset => s.bb_read env fd size offset
  | .write fd buf offset => s.bb_write env fd buf offset
  | .release fd => s.bb_release fd

/-- No call is refused. -/
def step (s : State) (a : Env × Call) : Option (Event × State) :=
  let (result, s') := s.perform a.1 a.2
  some ({ before := s, env := a.1, call := a.2, result }, s')

/-- A request of one chunk that goes through the cache. -/
def Cached (e : Event) : Prop :=
  (match e.call with
    | .read _ size _ => size = MAX_CHUNK_SIZE
    | .write _ buf _ => buf.length = MAX_CHUNK_SIZE
    | .release _ => False) ∧
  ((e.before.loadPolicyFromFile e.env.conf).policy.cachePolicy = 1 ∨
    (e.before.loadPolicyFromFile e.env.conf).policy.cachePolicy = 2)

instance (e : Event) : Decidable (Cached e) := by
  unfold Cached
  cases e.call <;> infer_instance

/-- A cached request has read a policy other than 0. -/
theorem Cached.uses_cache {e : Event} (h : Cached e) :
    (e.before.loadPolicyFromFile e.env.conf).policy.cachePolicy ≠ 0 := by
  rcases h.2 with h | h <;> rw [h] <;> decide

/-- The state when the mount begins, with the backing files. -/
def mount (d : Disk) : State where
  list := []
  bufferCount := 0
  accessCount := 0
  hitCount := 0
  missCount := 0
  policy := .start
  disk := d
  nextId := 0
  io := []

/-- A state of the cache after `INIT_LIST_HEAD` and before any call. -/
structure State.Fresh (s : State) : Prop where
  list : s.list = []
  bufferCount : s.bufferCount = 0
  accessCount : s.accessCount = 0
  hitCount : s.hitCount = 0
  missCount : s.missCount = 0
  io : s.io = []

theorem fresh_mount (d : Disk) : (mount d).Fresh :=
  ⟨rfl, rfl, rfl, rfl, rfl, rfl⟩

/-- One file that is open for reading and writing as the descriptor 3. -/
def oneFile (f : List UInt8) : Disk where
  fds fd := if fd = 3 then some ⟨0, true, true⟩ else none
  files _ := f

/-- The configuration has no encryption and the cache policy, and nothing else comes up. -/
def plainEnv (cachePolicy : Int) : Env where
  conf := some (0, 0, cachePolicy)
  evict₁ := (none, 0)
  evict₂ := (none, 0)
  stale := []

end EE516.Bbfs
