import EE516.Foundations.Bytes
import EE516.Bbfs.Policy

/-!
# The buffer cache of `bbfs.c`

One global list of file buffers, the front first, is shared by all open files. A buffer is a node of
the list with an address of its own (`id`), since `struct hitinfo` holds pointers to nodes. The
state also records what the program does to the backing files and to the list, newest first (`io`);
no step reads the record.
-/

set_option autoImplicit false

namespace EE516.Bbfs

open Foundations

/-- The size of a chunk. -/
def MAX_CHUNK_SIZE : Nat := 4096

/-- The most file buffers that the list holds. -/
def MAX_LIST_SIZE : Nat := 1280

/-- An `int` from a wider integer. -/
def toInt (x : Int) : Int :=
  (x + 2 ^ 31) % 2 ^ 32 - 2 ^ 31

/-- `char buf[MAX_CHUNK_SIZE]`. -/
structure Chunk where
  bytes : List UInt8
  size : bytes.length = MAX_CHUNK_SIZE
  deriving DecidableEq

/-- A copy of `MAX_CHUNK_SIZE` bytes. -/
def Chunk.ofBytes (l : List UInt8) : Chunk where
  bytes := fit MAX_CHUNK_SIZE l
  size := length_fit _ _

/-- `struct filebuffer`, with its address for its `listptr`. -/
structure FileBuffer where
  id : Nat
  fromOffset : Int
  toOffset : Int
  dirty : Bool
  fd : Int
  buf : Chunk
  deriving DecidableEq

/-! ## The backing files -/

/-- The error number for a descriptor that is not open for the access. -/
def EBADF : Int := 9

/-- The error number for a negative offset. -/
def EINVAL : Int := 22

/-- An open file: the file that it names, and what it is open for. -/
structure OpenFile where
  ino : Nat
  readable : Bool
  writable : Bool
  deriving DecidableEq, Repr

/-- The table of the open files and the contents of all files. The files are idealised: the device
has no errors and room for everything, no file was opened with `O_APPEND`, and a read or write is
never cut short but by the end of the file. -/
structure Disk where
  fds : Int → Option OpenFile
  files : Nat → List UInt8

/-- The bytes that `pread` stores, or the error number; an error of the device is not among them
(`Disk.preadOn` has those too). -/
def Disk.pread (d : Disk) (fd : Int) (size : Nat) (offset : Int) : Except Int (List UInt8) :=
  if offset < 0 then .error EINVAL
  else
    match d.fds fd with
    | some f =>
      if f.readable then .ok (readAt (d.files f.ino) offset.toNat size) else .error EBADF
    | none => .error EBADF

/-- The files after a `pwrite`, or the error number; the device never refuses the bytes. -/
def Disk.pwrite (d : Disk) (fd : Int) (buf : List UInt8) (offset : Int) : Except Int Disk :=
  if offset < 0 then .error EINVAL
  else
    match d.fds fd with
    | some f =>
      if f.writable then
        .ok { d with
          files := fun i =>
            if i = f.ino then writeAt (d.files i) offset.toNat buf else d.files i }
      else .error EBADF
    | none => .error EBADF

/-- The files after a `pwrite` whose result is not looked at. -/
def Disk.written (d : Disk) (fd : Int) (buf : List UInt8) (offset : Int) : Disk :=
  match d.pwrite fd buf offset with
  | .ok d' => d'
  | .error _ => d

/-- `close(fd)`. -/
def Disk.close (d : Disk) (fd : Int) : Disk :=
  { d with fds := fun i => if i = fd then none else d.fds i }

/-! ## The state -/

/-- What is recorded of a run. -/
inductive Io where
  /-- a call of `addFileBuffer` begins with this list -/
  | enter (list : List FileBuffer)
  | pread (fd : Int) (size : Nat) (offset : Int)
  | pwrite (fd : Int) (buf : List UInt8) (offset : Int)
  /-- the node is freed -/
  | free (b : FileBuffer)
  /-- the node is added in front of the list -/
  | insert (b : FileBuffer) (list : List FileBuffer)
  deriving DecidableEq

/-- The static variables of `bbfs.c`, the backing files, the next address, and the record. -/
structure State where
  list : List FileBuffer
  bufferCount : Nat
  accessCount : Nat
  hitCount : Nat
  missCount : Nat
  policy : Policy
  disk : Disk
  nextId : Nat
  io : List Io

/-- One more event in the record. -/
def State.record (s : State) (e : Io) : State :=
  { s with io := e :: s.io }

/-- `loadPolicyFromFile()`, with what `ee516.conf` says. -/
def State.loadPolicyFromFile (s : State) (conf : Conf) : State :=
  { s with policy := s.policy.loadPolicyFromFile conf }

/-- A zeroed block of `size` bytes after a `pread` into it, whose result is not looked at. -/
def State.preadBlock (s : State) (fd : Int) (size : Nat) (offset : Int) : List UInt8 :=
  match s.disk.pread fd size offset with
  | .ok buf => fit size buf
  | .error _ => fit size []

/-- A `pwrite` whose result is not looked at. -/
def State.pwrite (s : State) (fd : Int) (buf : List UInt8) (offset : Int) : State :=
  { s with disk := s.disk.written fd buf offset }.record (.pwrite fd buf offset)

/-- The buffer is written to the offset that it stands for if it is dirty. -/
def State.writeBack (s : State) (fd : Int) (pos : FileBuffer) : State :=
  if pos.dirty then s.pwrite fd pos.buf.bytes pos.fromOffset else s

/-- The files after the write-back of a buffer. -/
def Disk.writeBack (d : Disk) (fd : Int) (pos : FileBuffer) : Disk :=
  if pos.dirty then d.written fd pos.buf.bytes pos.fromOffset else d

/-- What is recorded of the write-back of a buffer. -/
def FileBuffer.writeBackIo (pos : FileBuffer) (fd : Int) : List Io :=
  if pos.dirty then [.pwrite fd pos.buf.bytes pos.fromOffset] else []

/-- A write-back changes the file and the record only. -/
theorem writeBack_eq (s : State) (fd : Int) (pos : FileBuffer) :
    s.writeBack fd pos =
      { s with
        disk := s.disk.writeBack fd pos
        io := pos.writeBackIo fd ++ s.io } := by
  rw [State.writeBack, Disk.writeBack, FileBuffer.writeBackIo]
  split <;> rfl

/-! ## `bufferHitCheck` -/

/-- `struct hitinfo`: the type of the access and the parts marked valid. -/
inductive HitInfo where
  | PERFECT_HIT (firstpart : FileBuffer)
  | PARTIAL_HIT (firstpart secondpart : FileBuffer)
  /-- `PARTIAL_MISS` with `valid[0]` -/
  | PARTIAL_MISS_FIRST (firstpart : FileBuffer)
  /-- `PARTIAL_MISS` with `valid[1]` -/
  | PARTIAL_MISS_SECOND (secondpart : FileBuffer)
  | PERFECT_MISS
  deriving DecidableEq

/-- The buffer is one of the file and starts at the target. -/
def FileBuffer.StartsAt (b : FileBuffer) (fd target : Int) : Prop :=
  b.fd = fd ∧ b.fromOffset = target

/-- The buffer is one of the file, and the target lies in it and not at its start. -/
def FileBuffer.Covers (b : FileBuffer) (fd target : Int) : Prop :=
  b.fd = fd ∧ b.fromOffset < target ∧ target < b.toOffset

instance (b : FileBuffer) (fd target : Int) : Decidable (b.StartsAt fd target) :=
  inferInstanceAs (Decidable (_ ∧ _))

instance (b : FileBuffer) (fd target : Int) : Decidable (b.Covers fd target) :=
  inferInstanceAs (Decidable (_ ∧ _ ∧ _))

/-- The type of an access that found these parts and no perfect hit. -/
def HitInfo.ofParts : Option FileBuffer → Option FileBuffer → HitInfo
  | some firstpart, some secondpart => .PARTIAL_HIT firstpart secondpart
  | some firstpart, none => .PARTIAL_MISS_FIRST firstpart
  | none, some secondpart => .PARTIAL_MISS_SECOND secondpart
  | none, none => .PERFECT_MISS

/-- The loop over the list; a later candidate replaces an earlier one. -/
def scan (targetfrom targetto fd : Int) :
    List FileBuffer → Option FileBuffer → Option FileBuffer → HitInfo
  | [], firstpart, secondpart => .ofParts firstpart secondpart
  | pos :: l, firstpart, secondpart =>
    if pos.StartsAt fd targetfrom then .PERFECT_HIT pos
    else
      scan targetfrom targetto fd l (if pos.Covers fd targetfrom then some pos else firstpart)
        (if pos.Covers fd targetto then some pos else secondpart)

/-- `list_move` of a node to the front. -/
def listMove (b : FileBuffer) (l : List FileBuffer) : List FileBuffer :=
  b :: l.eraseP fun c => c.id = b.id

/-- The parts that were found move to the front, the first part before the second. -/
def HitInfo.move : HitInfo → List FileBuffer → List FileBuffer
  | .PERFECT_HIT b, l => listMove b l
  | .PARTIAL_HIT b c, l => listMove b (listMove c l)
  | .PARTIAL_MISS_FIRST b, l => listMove b l
  | .PARTIAL_MISS_SECOND c, l => listMove c l
  | .PERFECT_MISS, l => l

/-- The accesses that count as hits. -/
def HitInfo.isHit : HitInfo → Bool
  | .PERFECT_HIT _ | .PARTIAL_HIT _ _ => true
  | _ => false

/-- `bufferHitCheck`: what it returns, with the parts moved to the front and the access counted. -/
def State.bufferHitCheck (s : State) (offset : Int) (reqSize : Nat) (fd : Int) : HitInfo × State :=
  let info := scan offset (toInt (offset + reqSize)) fd s.list none none
  (info,
    { s with
      list := info.move s.list
      accessCount := s.accessCount + 1
      hitCount := if info.isHit then s.hitCount + 1 else s.hitCount
      missCount := if info.isHit then s.missCount else s.missCount + 1 })

/-! ## `addFileBuffer` -/

/-- The loop that counts `targetEviction` down: the node where it reaches 0 and the other nodes. -/
def takeTarget : Nat → List FileBuffer → Option (FileBuffer × List FileBuffer)
  | _, [] => none
  | targetEviction, pos :: l =>
    if targetEviction = 1 then some (pos, l)
    else (takeTarget (targetEviction - 1) l).map fun r => (r.1, pos :: r.2)

/-- `list_last_entry` and the list without it. -/
def takeLast (l : List FileBuffer) : Option (FileBuffer × List FileBuffer) :=
  l.getLast?.map fun b => (b, l.dropLast)

/-- The node that is evicted and the other nodes. -/
def State.victim (s : State) (rand : Nat) : Option (FileBuffer × List FileBuffer) :=
  if s.policy.cachePolicy = 1 then takeTarget (1 + rand % s.bufferCount) s.list
  else takeLast s.list

/-- The eviction of `addFileBuffer`: the victim is written back to its own file if it is dirty, and
freed. -/
def State.evict (s : State) (conf : Conf) (rand : Nat) : State :=
  let s := s.loadPolicyFromFile conf
  let s :=
    match s.victim rand with
    | some (pos, l) => ({ s with list := l }.writeBack pos.fd pos).record (.free pos)
    | none => s
  { s with bufferCount := s.bufferCount - 1 }

/-- The insertion of `addFileBuffer`: a new node in front of the list, which is not dirty. -/
def State.insert (s : State) (buf : List UInt8) (fromOffset toOffset fd : Int) : State :=
  let buffer : FileBuffer :=
    { id := s.nextId, fromOffset, toOffset, dirty := false, fd, buf := .ofBytes buf }
  { s with
    list := buffer :: s.list
    bufferCount := s.bufferCount + 1
    nextId := s.nextId + 1 }.record (.insert buffer s.list)

/-- `addFileBuffer`, with the configuration and the random number that an eviction reads. -/
def State.addFileBuffer (s : State) (conf : Conf) (rand : Nat) (buf : List UInt8)
    (fromOffset toOffset fd : Int) : State :=
  let s := s.record (.enter s.list)
  let s := if MAX_LIST_SIZE ≤ s.bufferCount then s.evict conf rand else s
  s.insert buf fromOffset toOffset fd

/-! ## `releaseFileBuffer` -/

/-- The loop that takes the first node until the list is empty. -/
def releaseLoop (fd : Int) : List FileBuffer → State → State
  | [], s => s
  | pos :: l, s => releaseLoop fd l ({ s.writeBack fd pos with list := l }.record (.free pos))

/-- `releaseFileBuffer`: the list is emptied, and the counters start again. -/
def State.releaseFileBuffer (s : State) (fd : Int) : State :=
  { releaseLoop fd s.list s with
    list := []
    accessCount := 0
    hitCount := 0
    missCount := 0
    bufferCount := 0 }

/-- What is recorded of a release, newest first. -/
def releaseIo (fd : Int) : List FileBuffer → List Io
  | [] => []
  | pos :: l => releaseIo fd l ++ .free pos :: pos.writeBackIo fd

/-- The loop of a release writes the dirty buffers in the order of the list. -/
theorem releaseLoop_eq (fd : Int) (l : List FileBuffer) (s : State) :
    { releaseLoop fd l s with list := [] } =
      { s with
        list := []
        disk := l.foldl (fun d pos => d.writeBack fd pos) s.disk
        io := releaseIo fd l ++ s.io } := by
  induction l generalizing s with
  | nil => rfl
  | cons pos l ih =>
    rw [releaseLoop, ih, writeBack_eq]
    simp [State.record, releaseIo]

/-- A release writes the dirty buffers back in the order of the list and leaves nothing cached. -/
theorem releaseFileBuffer_eq (s : State) (fd : Int) :
    s.releaseFileBuffer fd =
      { s with
        list := []
        bufferCount := 0
        accessCount := 0
        hitCount := 0
        missCount := 0
        disk := s.list.foldl (fun d pos => d.writeBack fd pos) s.disk
        io := releaseIo fd s.list ++ s.io } := by
  have h := releaseLoop_eq fd s.list s
  exact congrArg (fun s' : State =>
    { s' with bufferCount := 0, accessCount := 0, hitCount := 0, missCount := 0 }) h

end EE516.Bbfs
