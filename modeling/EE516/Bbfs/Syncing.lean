import EE516.Bbfs.Orderly
import EE516.Bbfs.ReadYourWrites

/-!
# What a crash leaves

Below `bbfs.c` the kernel keeps the files in memory too, and writes them to the disk when it likes
or when `fsync` asks for it; a crash leaves what is on the disk. `bb_fsync` asks for it, but it does
not write the buffers of the program back to the files first, and `bb_flush` does nothing. So up to
the first eviction no write of a chunk outlives a crash, whatever is flushed and synchronised.
-/

set_option autoImplicit false

namespace EE516.Bbfs

open Foundations

variable {s s' : State} {d : Disk} {k : Nat} {fd : Int} {env : Env} {offset size : Nat}
variable {buf : List UInt8} {conf : Conf} {rand : Nat} {start stop : Int}

/-! ## The calls -/

/-- The program and what is on the disk of every file. -/
structure Mounted where
  cache : State
  durable : Nat → List UInt8

/-- The kernel writes a file to the disk. -/
def Mounted.writeback (m : Mounted) (ino : Nat) : Mounted :=
  { m with durable := fun i => if i = ino then m.cache.disk.files i else m.durable i }

/-- `bb_flush` does nothing. -/
def Mounted.bb_flush (m : Mounted) (_fd : Int) : Int × Mounted :=
  (0, m)

/-- `bb_fsync`: the result of `fsync` on the backing file. -/
def Mounted.bb_fsync (m : Mounted) (fd : Int) : Int × Mounted :=
  match m.cache.disk.fds fd with
  | some f => (0, m.writeback f.ino)
  | none => (-1, m)

/-- What the callers and the kernel do. -/
inductive Action where
  | call (env : Env) (call : Call)
  | flush (fd : Int)
  | fsync (fd : Int)
  /-- the kernel writes a file to the disk by itself -/
  | writeback (ino : Nat)

/-- An action and the value that the program returned. -/
structure Answer where
  before : Mounted
  action : Action
  ret : Int

/-- The returned value and what an action does. -/
def Mounted.perform (m : Mounted) : Action → Int × Mounted
  | .call env call =>
    let (result, s) := m.cache.perform env call
    (result.ret, { m with cache := s })
  | .flush fd => m.bb_flush fd
  | .fsync fd => m.bb_fsync fd
  | .writeback ino => (0, m.writeback ino)

/-- An action with the value that it returns. -/
def Mounted.answer (m : Mounted) (a : Action) : Answer where
  before := m
  action := a
  ret := (m.perform a).1

/-- No action is refused. -/
def Mounted.step (m : Mounted) (a : Action) : Option (Answer × Mounted) :=
  some (m.answer a, (m.perform a).2)

/-- All is on the disk, and nothing was requested yet. -/
def mounted (d : Disk) : Mounted where
  cache := mount d
  durable := d.files

/-- The requests among the actions are for one chunk each, with the cache, and what is synchronised
is open. -/
def Answer.Cached (a : Answer) : Prop :=
  match a.action with
  | .call env call => Bbfs.Cached (a.before.cache.event env call)
  | .fsync fd => (a.before.cache.disk.fds fd).isSome = true
  | _ => True

instance (a : Answer) : Decidable a.Cached := by
  unfold Answer.Cached
  cases a.action <;> infer_instance

/-- The value that tells the caller that all went well. -/
def Action.success : Action → Int
  | .call _ _ => MAX_CHUNK_SIZE
  | .flush _ | .fsync _ | .writeback _ => 0

/-- An action of such a run. -/
def SyncStep (m : Mounted) (a : Answer) (m' : Mounted) : Prop :=
  StepBy Mounted.step m a m' ∧ a.Cached

/-! ## Before the first eviction -/

/-- The list is full, or nothing was written to the files; there are no less than `k` buffers. -/
structure Unwritten (d : Disk) (k : Nat) (s : State) : Prop extends Nodes s where
  disk : s.bufferCount < MAX_LIST_SIZE → s.disk = d
  count : k ≤ s.bufferCount

theorem Unwritten.quiet (h : Unwritten d k s) (hq : Quiet s s') (hdisk : s'.disk = s.disk) :
    Unwritten d k s' :=
  { h.toNodes.quiet hq with
    disk := fun hlt => hdisk.trans (h.disk (hq.bufferCount ▸ hlt))
    count := hq.bufferCount ▸ h.count }

theorem Unwritten.bufferHitCheck (h : Unwritten d k s) (start : Int) (size : Nat) (fd : Int) :
    Unwritten d k (s.bufferHitCheck start size fd).2 :=
  { (h.toNodes.bufferHitCheck).2 with
    disk := h.disk
    count := h.count }

theorem Unwritten.pread (h : Unwritten d k s) (fd : Int) (size : Nat) (start : Int) :
    Unwritten d k (s.record (.pread fd size start)) :=
  h.quiet (quiet_pread s fd size start) rfl

theorem Unwritten.setBuf (h : Unwritten d k s) (b : FileBuffer) (buf : List UInt8) :
    Unwritten d k (s.setBuf b buf) :=
  h.quiet (quiet_setBuf s b buf) rfl

theorem Unwritten.setDirty (h : Unwritten d k s) (b : FileBuffer) : Unwritten d k (s.setDirty b) :=
  h.quiet (quiet_setDirty s b) rfl

/-- Only an insertion into a full list writes, and the list is full afterwards. -/
theorem Unwritten.addFileBuffer (h : Unwritten d k s) :
    Unwritten d k (s.addFileBuffer conf rand buf start stop fd) := by
  have hadd := h.adds_buffer conf rand buf start stop fd
  have hnodes : Nodes (s.addFileBuffer conf rand buf start stop fd) := h.toNodes.addFileBuffer
  have hcount := h.count
  refine { hnodes with disk := ?_, count := ?_ }
  all_goals generalize s.addFileBuffer conf rand buf start stop fd = s' at hadd
  · cases hadd with
    | room hlt => exact fun _ => h.disk (h.bufferCount ▸ hlt)
    | full hfull =>
      intro hlt
      exact absurd (Nat.le_trans hfull (Nat.le_of_eq h.bufferCount.symm)) (Nat.not_le_of_lt hlt)
  · cases hadd with
    | room => exact Nat.le_succ_of_le hcount
    | full => exact hcount

/-- No step of a cached request writes to the disk before the list is full. -/
theorem unwritten_keptBy (d : Disk) (k : Nat) (env : Env) : KeptBy env (Unwritten d k) where
  pread h := h.pread
  setBuf h := h.setBuf
  setDirty h := h.setDirty
  add₁ h _ _ _ _ := h.addFileBuffer
  add₂ h _ _ _ _ := h.addFileBuffer

/-- A request with the cache is acknowledged, and writes nothing before the list is full. -/
theorem Unwritten.perform {call : Call} (h : Unwritten d k s) (hc : Cached (s.event env call)) :
    Unwritten d k (s.perform env call).2 ∧ (s.perform env call).1.ret = MAX_CHUNK_SIZE := by
  have huse : (s.loadPolicyFromFile env.conf).policy.cachePolicy ≠ 0 := hc.uses_cache
  have hs : Unwritten d k (s.loadPolicyFromFile env.conf) :=
    h.quiet (quiet_loadPolicyFromFile s env.conf) rfl
  obtain ⟨hsize, -⟩ := hc
  cases call with
  | read fd size offset =>
    obtain rfl : size = MAX_CHUNK_SIZE := hsize
    rw [State.perform, bb_read_cached huse]
    exact ⟨(unwritten_keptBy d k env).cachedRead (hs.bufferHitCheck ..), rfl⟩
  | write fd buf offset =>
    rw [State.perform, bb_write_cached huse hsize]
    exact ⟨(unwritten_keptBy d k env).cachedWrite (hs.bufferHitCheck ..), rfl⟩
  | release fd => exact absurd hsize id

/-! ## Runs -/

/-- Up to the first eviction the disk and the files hold what they held before. -/
structure Volatile (d : Disk) (m : Mounted) : Prop extends Unwritten d 0 m.cache where
  durable : m.cache.bufferCount < MAX_LIST_SIZE → m.durable = d.files

/-- After the mount nothing was written. -/
theorem volatile_mounted (d : Disk) : Volatile d (mounted d) :=
  { (fresh_mount d).nodes with
    disk := fun _ => rfl
    count := Nat.zero_le _
    durable := fun _ => rfl }

variable {m m' : Mounted} {a : Answer} {τ : List Answer}

/-- The kernel writes what was there before. -/
theorem Volatile.writeback (h : Volatile d m) (ino : Nat) : Volatile d (m.writeback ino) := by
  refine { h.toUnwritten with durable := fun hlt => ?_ }
  funext i
  rw [Mounted.writeback, ← h.durable hlt]
  dsimp only
  split
  case isTrue hi => rw [h.disk hlt, h.durable hlt]
  case isFalse => rfl

/-- A synchronisation writes one file to the disk, or nothing. -/
theorem bb_fsync_eq (m : Mounted) (fd : Int) :
    (m.bb_fsync fd).2 = m ∨ ∃ ino, (m.bb_fsync fd).2 = m.writeback ino := by
  rw [Mounted.bb_fsync]
  split
  · exact .inr ⟨_, rfl⟩
  · exact .inl rfl

/-- Every action answers that all went well. -/
theorem Volatile.step (h : Volatile d m) (he : SyncStep m a m') :
    Volatile d m' ∧ a.ret = a.action.success := by
  obtain ⟨⟨action, ha⟩, hc⟩ := he
  cases ha
  cases action with
  | call env call =>
    have hs : Unwritten d m.cache.bufferCount m.cache :=
      { h.toUnwritten with count := Nat.le_refl _ }
    obtain ⟨hs', hret⟩ := hs.perform hc
    refine ⟨?_, hret⟩
    exact { hs' with
      count := Nat.zero_le _
      durable := fun hlt => h.durable (Nat.lt_of_le_of_lt hs'.count hlt) }
  | flush fd => exact ⟨h, rfl⟩
  | fsync fd =>
    have hret : (m.bb_fsync fd).1 = 0 := by
      obtain ⟨f, hf⟩ := Option.isSome_iff_exists.1 hc
      have hf' : m.cache.disk.fds fd = some f := hf
      rw [Mounted.bb_fsync, hf']
    rcases bb_fsync_eq m fd with heq | ⟨ino, heq⟩
    · rw [Mounted.perform, heq]
      exact ⟨h, hret⟩
    · rw [Mounted.perform, heq]
      exact ⟨h.writeback ino, hret⟩
  | writeback ino => exact ⟨h.writeback ino, rfl⟩

/-- In every run of requests for one chunk each with the cache, of flushes, of synchronisations of
open files, and of the kernel writing files to the disk, every answer was that all went well; and
yet the disk and the files hold what they held at the start, as long as the list has room for one
more buffer. -/
theorem nothing_saved (h : Run SyncStep (mounted d) τ m)
    (hroom : m.cache.bufferCount < MAX_LIST_SIZE) :
    (∀ a ∈ τ, a.ret = a.action.success) ∧ m.cache.disk = d ∧ m.durable = d.files := by
  have hinv : Volatile d m ∧ ∀ a ∈ τ, a.ret = a.action.success := by
    refine h.invariant (fun τ m => Volatile d m ∧ ∀ a ∈ τ, a.ret = a.action.success)
      ⟨volatile_mounted d, fun _ hb => absurd hb List.not_mem_nil⟩ ?_
    rintro τ m a m' - ⟨hm, hτ⟩ he
    obtain ⟨hm', hret⟩ := hm.step he
    refine ⟨hm', fun b hb => ?_⟩
    rcases List.mem_cons.1 hb with rfl | hb
    · exact hret
    · exact hτ b hb
  obtain ⟨hm, hτ⟩ := hinv
  exact ⟨hτ, hm.disk hroom, hm.durable hroom⟩

/-- A chunk of an empty file is written and synchronised. -/
def syncedOnes : Mounted :=
  (((mounted (oneFile [])).perform (.call (plainEnv 2) (.write 3 ones 0))).2.perform (.fsync 3)).2

/-- The write was acknowledged, and the synchronisation after it, and the disk is as it was. -/
theorem nothing_saved_ones : syncedOnes.durable = (oneFile []).files := by
  have hwrite : SyncStep (mounted (oneFile [])) ((mounted (oneFile [])).answer
      (.call (plainEnv 2) (.write 3 ones 0)))
      ((mounted (oneFile [])).perform (.call (plainEnv 2) (.write 3 ones 0))).2 :=
    ⟨⟨_, rfl⟩, by decide +kernel⟩
  have hsync : SyncStep _ (Mounted.answer _ (.fsync 3)) syncedOnes :=
    ⟨⟨.fsync 3, rfl⟩, by decide +kernel⟩
  exact (nothing_saved (.step (.step .start hwrite) hsync) (by decide +kernel)).2.2

end EE516.Bbfs
