import EE516.Bbfs.Calls
import EE516.KernelList.ListHead

/-!
# The cache in memory

`bbfs.c` once more, with the nodes where the program has them: each `struct filebuffer` is allocated
at an address, begins with its `listptr`, and is reached through the pointers of `list.h` from
`headptr`. An access to memory that holds no node, and a second `free` of a node, is a fault; only
the reads of `bb_read` after an insertion go on with whatever freed memory holds. Of the temporary
blocks (`intermediateBuf`, `tempbuf`, `totalbuf`) the model keeps how many are allocated. Their
contents stay lists of bytes, and the copies stay inside the blocks as in the model of the calls:
where a chunk has no NUL byte, the `sprintf` of the program runs on behind it, and nothing here
says what it meets there. `calloc` never fails. The loops are bounded by `fuel`.
-/

set_option autoImplicit false

namespace EE516.Bbfs

open Foundations KernelList

/-- An address of a node. -/
abbrev Addr := Nat

/-- `struct filebuffer` without `listptr`. -/
structure Contents where
  fromOffset : Int
  toOffset : Int
  dirty : Bool
  fd : Int
  buf : Chunk
  deriving DecidableEq

/-- The memory of the program: `links` has `headptr` and the `listptr` of each node, `buffers` the
rest of the nodes, and `blocks` is the number of temporary blocks that are allocated. -/
structure Memory where
  headptr : Addr
  links : Heap Addr
  buffers : Addr → Option Contents
  blocks : Nat
  bufferCount : Nat
  accessCount : Nat
  hitCount : Nat
  missCount : Nat
  policy : Policy
  disk : Disk

/-- The access results of `struct hitinfo`. -/
inductive AccessType where
  | PERFECT_HIT
  | PARTIAL_HIT
  | PARTIAL_MISS
  | PERFECT_MISS
  deriving DecidableEq, Repr

/-- `struct hitinfo`; a part that was not assigned is none. -/
structure HitStruct where
  type : AccessType
  valid₀ : Bool
  valid₁ : Bool
  firstpart : Option Addr
  secondpart : Option Addr
  deriving DecidableEq, Repr

namespace Memory

/-- `loadPolicyFromFile()`, with what `ee516.conf` says. -/
def loadPolicyFromFile (m : Memory) (conf : Conf) : Memory :=
  { m with policy := m.policy.loadPolicyFromFile conf }

/-- A block of `size` zeros after a `pread` into it whose result is not looked at. -/
def preadBlock (m : Memory) (fd : Int) (size : Nat) (offset : Int) : List UInt8 :=
  match m.disk.pread fd size offset with
  | .ok buf => fit size buf
  | .error _ => fit size []

/-- The node that a pointer leads to. -/
def follow (m : Memory) (p : Option Addr) : Option Contents :=
  p.bind m.buffers

/-- The chunk that a pointer leads to; freed memory holds anything. -/
def deref (m : Memory) (p : Option Addr) (stale : List UInt8) : List UInt8 :=
  match m.follow p with
  | some b => b.buf.bytes
  | none => stale

/-- An assignment to the node that a pointer leads to. -/
def modify (m : Memory) (p : Option Addr) (f : Contents → Contents) : Option Memory := do
  let a ← p
  let b ← m.buffers a
  some { m with buffers := Function.update m.buffers a (some (f b)) }

/-- `memcpy(p->buf, buf, size)`. -/
def setBuf (m : Memory) (p : Option Addr) (buf : List UInt8) : Option Memory :=
  m.modify p fun b => { b with buf := .ofBytes buf }

/-- `p->dirty = 1`. -/
def setDirty (m : Memory) (p : Option Addr) : Option Memory :=
  m.modify p fun b => { b with dirty := true }

/-- `calloc` of a temporary block. -/
def callocBlock (m : Memory) : Memory :=
  { m with blocks := m.blocks + 1 }

/-- `free` of a temporary block. -/
def freeBlock (m : Memory) : Option Memory :=
  if m.blocks = 0 then none else some { m with blocks := m.blocks - 1 }

/-! ## `bufferHitCheck` -/

/-- `list_for_each_entry` of the search. -/
def searchLoop (m : Memory) (targetfrom targetto fd : Int) :
    Nat → Ptr Addr → HitStruct → Option HitStruct
  | 0, _, _ => none
  | fuel + 1, pos, ret =>
    if pos = .addr m.headptr then some ret
    else do
      let a ← pos.cell
      let b ← m.buffers a
      if b.fd = fd ∧ b.fromOffset = targetfrom then
        some { ret with type := .PERFECT_HIT, valid₀ := true, firstpart := some a }
      else
        let ret :=
          if b.fd = fd ∧ b.fromOffset < targetfrom ∧ targetfrom < b.toOffset then
            { ret with valid₀ := true, firstpart := some a }
          else ret
        let ret :=
          if b.fd = fd ∧ b.fromOffset < targetto ∧ targetto < b.toOffset then
            { ret with valid₁ := true, secondpart := some a }
          else ret
        let c ← m.links a
        searchLoop m targetfrom targetto fd fuel c.next ret

/-- `list_move(&(p->listptr), &headptr)`. -/
def moveToFront (m : Memory) (p : Option Addr) : Option Memory := do
  let a ← p
  let links ← list_move m.links (.addr a) (.addr m.headptr)
  some { m with links }

/-- `bufferHitCheck`: what it returns, with the nodes that it found moved to the front. -/
def bufferHitCheck (fuel : Nat) (m : Memory) (offset : Int) (reqSize : Nat) (fd : Int) :
    Option (HitStruct × Memory) := do
  let m := { m with accessCount := m.accessCount + 1 }
  let head ← load m.links (.addr m.headptr)
  let ret ← m.searchLoop offset (toInt (offset + reqSize)) fd fuel head.next
    ⟨.PERFECT_MISS, false, false, none, none⟩
  if ret.type = .PERFECT_HIT then
    let m ← { m with hitCount := m.hitCount + 1 }.moveToFront ret.firstpart
    some (ret, m)
  else if ret.valid₀ ∧ ret.valid₁ then
    let m ← { m with hitCount := m.hitCount + 1 }.moveToFront ret.secondpart
    let m ← m.moveToFront ret.firstpart
    some ({ ret with type := .PARTIAL_HIT }, m)
  else if ret.valid₀ ∨ ret.valid₁ then
    let m := { m with missCount := m.missCount + 1 }
    let m ← if ret.valid₀ then m.moveToFront ret.firstpart else m.moveToFront ret.secondpart
    some ({ ret with type := .PARTIAL_MISS }, m)
  else some (ret, { m with missCount := m.missCount + 1 })

/-! ## `addFileBuffer` -/

/-- `free(pos)`. -/
def free (m : Memory) (a : Addr) : Option Memory := do
  let _ ← m.buffers a
  let _ ← m.links a
  some { m with
    links := Function.update m.links a none
    buffers := Function.update m.buffers a none }

/-- `list_del`, the write-back to `fd` if the node is dirty, and `free`. -/
def dropNode (m : Memory) (fd : Contents → Int) (a : Addr) : Option Memory := do
  let links ← list_del m.links (.addr a)
  let m := { m with links }
  let b ← m.buffers a
  let m :=
    if b.dirty then { m with disk := m.disk.written (fd b) b.buf.bytes b.fromOffset } else m
  m.free a

/-- The loop of the random eviction. -/
def evictLoop (m : Memory) : Nat → Ptr Addr → Nat → Option Memory
  | 0, _, _ => none
  | fuel + 1, pos, targetEviction =>
    if pos = .addr m.headptr then some m
    else do
      let a ← pos.cell
      if targetEviction - 1 = 0 then m.dropNode Contents.fd a
      else
        let c ← m.links a
        evictLoop m fuel c.next (targetEviction - 1)

/-- The eviction of `addFileBuffer`. -/
def evict (fuel : Nat) (m : Memory) (conf : Conf) (rand : Nat) : Option Memory := do
  let m := m.loadPolicyFromFile conf
  let head ← load m.links (.addr m.headptr)
  let m ←
    if m.policy.cachePolicy = 1 then m.evictLoop fuel head.next (1 + rand % m.bufferCount)
    else do
      let a ← head.prev.cell
      m.dropNode Contents.fd a
  some { m with bufferCount := m.bufferCount - 1 }

/-- Nothing is allocated at the address. -/
def Unused (m : Memory) (a : Addr) : Prop :=
  m.links a = none ∧ m.buffers a = none

instance (m : Memory) (a : Addr) : Decidable (m.Unused a) :=
  inferInstanceAs (Decidable (_ ∧ _))

/-- `calloc` of a node, and its initialisation. -/
def calloc (m : Memory) (addr : Addr) (b : Contents) : Option Memory :=
  if m.Unused addr then
    some { m with
      links := Function.update m.links addr (some ⟨.NULL, .NULL⟩)
      buffers := Function.update m.buffers addr (some b) }
  else none

/-- `addFileBuffer`; `alloc` says which address `calloc` returns. -/
def addFileBuffer (fuel : Nat) (m : Memory) (conf : Conf) (rand : Nat) (alloc : Memory → Addr)
    (buf : List UInt8) (fromOffset toOffset fd : Int) : Option Memory := do
  let m ← if MAX_LIST_SIZE ≤ m.bufferCount then m.evict fuel conf rand else some m
  let addr := alloc m
  let m ← m.calloc addr { fromOffset, toOffset, dirty := false, fd, buf := .ofBytes buf }
  let links ← list_add m.links (.addr addr) (.addr m.headptr)
  some { m with links, bufferCount := m.bufferCount + 1 }

/-! ## `releaseFileBuffer` -/

/-- The loop that takes the first node until the list is empty. -/
def releaseLoop (fd : Int) : Nat → Memory → Option Memory
  | 0, _ => none
  | fuel + 1, m => do
    let empty ← list_empty m.links (.addr m.headptr)
    if empty then some m
    else
      let head ← load m.links (.addr m.headptr)
      let a ← head.next.cell
      let b ← m.buffers a
      let m :=
        if b.dirty then { m with disk := m.disk.written fd b.buf.bytes b.fromOffset } else m
      let links ← list_del m.links (.addr a)
      let m ← { m with links }.free a
      releaseLoop fd fuel m

/-- `releaseFileBuffer`: the nodes are written back and freed, and the counters start again. -/
def releaseFileBuffer (fuel : Nat) (m : Memory) (fd : Int) : Option Memory := do
  let m ← m.releaseLoop fd fuel
  let m := { m with accessCount := 0, hitCount := 0, missCount := 0, bufferCount := 0 }
  let links ← INIT_LIST_HEAD m.links (.addr m.headptr)
  some { m with links }

end Memory

/-! ## The calls -/

/-- What one call finds around it, and the addresses that `calloc` returns. -/
structure PtrEnv extends Env where
  alloc : Memory → Addr

/-- `calloc` returns an address where nothing is allocated, as long as there is one. -/
def PtrEnv.Lawful (env : PtrEnv) : Prop :=
  ∀ m : Memory, (∃ a, m.Unused a) → m.Unused (env.alloc m)

/-- A call that was made in a memory, and what it returned. -/
structure PtrEvent where
  memory : Memory
  env : PtrEnv
  call : Call
  result : Result

namespace Memory

/-- `retstat = pread(fi->fh, buf, size, offset)`, and the bytes in `buf`. -/
def pread (m : Memory) (fd : Int) (size offset : Nat) : Int × List UInt8 :=
  match m.disk.pread fd size offset with
  | .ok buf => (buf.length, buf)
  | .error errno => (-errno, [])

/-- The first insertion of a call, with what the eviction and the allocation find. -/
def add₁ (fuel : Nat) (m : Memory) (env : PtrEnv) (buf : List UInt8)
    (fromOffset toOffset fd : Int) : Option Memory :=
  m.addFileBuffer fuel env.evict₁.1 env.evict₁.2 env.alloc buf fromOffset toOffset fd

/-- The second insertion of a call. -/
def add₂ (fuel : Nat) (m : Memory) (env : PtrEnv) (buf : List UInt8)
    (fromOffset toOffset fd : Int) : Option Memory :=
  m.addFileBuffer fuel env.evict₂.1 env.evict₂.2 env.alloc buf fromOffset toOffset fd

/-- The branches of `bb_read` with the cache: `retstat` and the bytes in `buf` before the
decryption. -/
def cachedRead (fuel : Nat) (m : Memory) (env : PtrEnv) (fd : Int) (size offset : Nat) :
    Option ((Int × List UInt8) × Memory) := do
  let (info, m) ← m.bufferHitCheck fuel (toInt offset) size fd
  let refinedOffset := offset % MAX_CHUNK_SIZE
  match info.type with
  | .PERFECT_HIT =>
    let first ← m.follow info.firstpart
    some ((size, first.buf.bytes), m)
  | .PARTIAL_HIT =>
    let first ← m.follow info.firstpart
    let second ← m.follow info.secondpart
    let m := m.callocBlock
    let totalbuf := sprintf first.buf.bytes second.buf.bytes
    let m ← m.freeBlock
    some ((size, slice totalbuf refinedOffset size), m)
  | .PARTIAL_MISS =>
    if info.valid₀ then
      let first ← m.follow info.firstpart
      let start := first.toOffset
      let m := m.callocBlock
      let tempbuf := m.preadBlock fd size start
      let m ← m.add₁ fuel env tempbuf start (toInt (start + size)) fd
      let m := m.callocBlock
      let totalbuf := sprintf (m.deref info.firstpart env.stale) tempbuf
      let m ← m.freeBlock
      let m ← m.freeBlock
      some ((size, slice totalbuf refinedOffset size), m)
    else if info.valid₁ then
      let second ← m.follow info.secondpart
      let start := toInt (second.toOffset - MAX_CHUNK_SIZE)
      let m := m.callocBlock
      let tempbuf := m.preadBlock fd size start
      let m ← m.add₁ fuel env tempbuf start (toInt (start + size)) fd
      let m := m.callocBlock
      let totalbuf := sprintf tempbuf (m.deref info.secondpart env.stale)
      let m ← m.freeBlock
      let m ← m.freeBlock
      some ((size, slice totalbuf refinedOffset size), m)
    else some (m.pread fd size offset, m)
  | .PERFECT_MISS =>
    let p := offset % MAX_CHUNK_SIZE
    if p = 0 then
      let start := toInt offset
      let m := m.callocBlock
      let tempbuf := m.preadBlock fd size start
      let m ← m.add₁ fuel env tempbuf start (toInt (start + size)) fd
      let m ← m.freeBlock
      some ((size, slice tempbuf 0 size), m)
    else
      let start := toInt (offset - p)
      let m := m.callocBlock
      let tempbuf := m.preadBlock fd (2 * size) start
      let m ← m.add₁ fuel env tempbuf start (toInt (start + size)) fd
      let m ← m.add₂ fuel env (tempbuf.drop size) (toInt (start + size))
        (toInt (start + size + size)) fd
      let m ← m.freeBlock
      some ((size, slice tempbuf refinedOffset size), m)

/-- `bb_read`. -/
def bb_read (fuel : Nat) (m : Memory) (env : PtrEnv) (fd : Int) (size offset : Nat) :
    Option (Result × Memory) := do
  let m := m.loadPolicyFromFile env.conf
  let ((retstat, buf), m) ←
    if m.policy.cachePolicy ≠ 0 ∧ size = MAX_CHUNK_SIZE then m.cachedRead fuel env fd size offset
    else some (m.pread fd size offset, m)
  some ({ ret := retstat, buf := m.policy.decrypt buf }, m)

/-- `retstat = pwrite(fi->fh, intermediateBuf, size, offset)` and `free(intermediateBuf)`. -/
def pwrite (m : Memory) (fd : Int) (buf : List UInt8) (offset : Nat) : Option (Int × Memory) := do
  let retstat : Int :=
    match m.disk.pwrite fd buf offset with
    | .ok _ => buf.length
    | .error errno => -errno
  let m ← { m with disk := m.disk.written fd buf offset }.freeBlock
  some (retstat, m)

/-- The branches of `bb_write` with the cache, on the encrypted bytes. Each of them jumps over the
`free` of `intermediateBuf`. -/
def cachedWrite (fuel : Nat) (m : Memory) (env : PtrEnv) (fd : Int) (intermediateBuf : List UInt8)
    (size offset : Nat) : Option (Int × Memory) := do
  let (info, m) ← m.bufferHitCheck fuel (toInt offset) size fd
  let refinedOffset := offset % MAX_CHUNK_SIZE
  match info.type with
  | .PERFECT_HIT =>
    let m ← m.setBuf info.firstpart intermediateBuf
    let m ← m.setDirty info.firstpart
    some (size, m)
  | .PARTIAL_HIT =>
    let first ← m.follow info.firstpart
    let second ← m.follow info.secondpart
    let m := m.callocBlock
    let totalbuf := overlay (sprintf first.buf.bytes second.buf.bytes) refinedOffset intermediateBuf
    let m ← m.setBuf info.firstpart totalbuf
    let m ← m.setBuf info.secondpart (totalbuf.drop MAX_CHUNK_SIZE)
    let m ← m.setDirty info.firstpart
    let m ← m.setDirty info.secondpart
    let m ← m.freeBlock
    some (size, m)
  | .PARTIAL_MISS =>
    if info.valid₀ then
      let first ← m.follow info.firstpart
      let start := first.toOffset
      let m := m.callocBlock
      let tempbuf := m.preadBlock fd size start
      let m := m.callocBlock
      let totalbuf := overlay (sprintf first.buf.bytes tempbuf) refinedOffset intermediateBuf
      let m ← m.setBuf info.firstpart totalbuf
      let m ← m.setDirty info.firstpart
      let m ← m.add₁ fuel env (totalbuf.drop size) (toInt (start + size))
        (toInt (start + size + size)) fd
      let m ← m.freeBlock
      let m ← m.freeBlock
      some (size, m)
    else if info.valid₁ then
      let second ← m.follow info.secondpart
      let start := toInt (second.fromOffset - MAX_CHUNK_SIZE)
      let m := m.callocBlock
      let tempbuf := m.preadBlock fd size start
      let m := m.callocBlock
      let totalbuf := overlay (sprintf tempbuf second.buf.bytes) refinedOffset intermediateBuf
      let m ← m.setBuf info.secondpart (totalbuf.drop size)
      let m ← m.add₁ fuel env totalbuf start (toInt (start + size)) fd
      let m ← m.freeBlock
      let m ← m.freeBlock
      some (size, m)
    else m.pwrite fd intermediateBuf offset
  | .PERFECT_MISS =>
    let p := offset % MAX_CHUNK_SIZE
    if p = 0 then
      let start := toInt offset
      let m := m.callocBlock
      let tempbuf := overlay (m.preadBlock fd size start) 0 intermediateBuf
      let m ← m.add₁ fuel env tempbuf start (toInt (start + size)) fd
      let m ← m.freeBlock
      some (size, m)
    else
      let start := toInt (offset - p)
      let m := m.callocBlock
      let tempbuf := overlay (m.preadBlock fd (2 * size) start) refinedOffset intermediateBuf
      let m ← m.add₁ fuel env tempbuf start (toInt (start + size)) fd
      let m ← m.add₂ fuel env (tempbuf.drop size) (toInt (start + size))
        (toInt (start + size + size)) fd
      let m ← m.freeBlock
      some (size, m)

/-- `bb_write`; the block of `intermediateBuf` is allocated whatever branch follows. -/
def bb_write (fuel : Nat) (m : Memory) (env : PtrEnv) (fd : Int) (buf : List UInt8) (offset : Nat) :
    Option (Result × Memory) := do
  let size := buf.length
  let m := (m.loadPolicyFromFile env.conf).callocBlock
  let intermediateBuf := m.policy.encrypt (strncpy buf size)
  let (retstat, m) ←
    if m.policy.cachePolicy ≠ 0 ∧ size = MAX_CHUNK_SIZE then
      m.cachedWrite fuel env fd intermediateBuf size offset
    else m.pwrite fd intermediateBuf offset
  some ({ ret := retstat, buf := [] }, m)

/-- `bb_release`. -/
def bb_release (fuel : Nat) (m : Memory) (fd : Int) : Option (Result × Memory) := do
  let m ← m.releaseFileBuffer fuel fd
  some ({ ret := if (m.disk.fds fd).isSome then 0 else -1, buf := [] },
    { m with disk := m.disk.close fd })

/-- A call with its result. -/
def perform (fuel : Nat) (m : Memory) (env : PtrEnv) : Call → Option (Result × Memory)
  | .read fd size offset => m.bb_read fuel env fd size offset
  | .write fd buf offset => m.bb_write fuel env fd buf offset
  | .release fd => m.bb_release fuel fd

/-- A call that meets a fault is refused. -/
def step (fuel : Nat) (m : Memory) (a : PtrEnv × Call) : Option (PtrEvent × Memory) := do
  let (result, after) ← m.perform fuel a.1 a.2
  some ({ memory := m, env := a.1, call := a.2, result }, after)

/-- `main` before `fuse_main`: the list is initialised in memory that has nothing else. -/
def main (headptr : Addr) (d : Disk) : Option Memory := do
  let links ← INIT_LIST_HEAD (Function.update (fun _ => none) headptr (some ⟨.NULL, .NULL⟩))
    (.addr headptr)
  some {
    headptr, links
    buffers := fun _ => none
    blocks := 0
    bufferCount := 0
    accessCount := 0
    hitCount := 0
    missCount := 0
    policy := .start
    disk := d }

end Memory

end EE516.Bbfs
