import EE516.Bbfs.Orderly
import EE516.Bbfs.Durability

/-!
# Cutting a file while it is cached

`bb_ftruncate` cuts the backing file and leaves the cache alone. What was cached from behind the cut
is still returned by reads, and a dirty chunk that reaches over the cut makes the file longer again
when it is written back. If the cache holds neither when the file is cut, the data behind the cut is
gone.
-/

set_option autoImplicit false

namespace EE516.Bbfs

open Foundations

variable {s₀ s s₁ s' : State} {b v new : FileBuffer} {fd : Int} {f : OpenFile} {env : Env}
variable {offset n k size : Nat} {l a : List UInt8} {x start stop : Int} {conf : Conf} {rand : Nat}
variable {d : Disk} {τ τ' : List Event} {e : Event}

/-! ## `bb_ftruncate` -/

/-- The files after a `ftruncate`, or the error number. -/
def Disk.ftruncate (d : Disk) (fd length : Int) : Except Int Disk :=
  if length < 0 then .error EINVAL
  else
    match d.fds fd with
    | some f =>
      if f.writable then
        .ok { d with
          files := fun i => if i = f.ino then fit length.toNat (d.files i) else d.files i }
      else .error EINVAL
    | none => .error EBADF

/-- The cache is not looked at. -/
def State.bb_ftruncate (s : State) (fd offset : Int) : Result × State :=
  match s.disk.ftruncate fd offset with
  | .ok disk => ({ ret := 0, buf := [] }, { s with disk := disk })
  | .error errno => ({ ret := -errno, buf := [] }, s)

/-- A call that returned 0 has cut the file. -/
theorem bb_ftruncate_eq (h : (s.bb_ftruncate fd n).1.ret = 0) (hf : s.disk.fds fd = some f) :
    (s.bb_ftruncate fd n).2 =
      { s with
        disk := { s.disk with
          files := fun i => if i = f.ino then fit n (s.disk.files i) else s.disk.files i } } := by
  have hcut : s.disk.ftruncate fd n =
      if f.writable then
        .ok { s.disk with
          files := fun i => if i = f.ino then fit n (s.disk.files i) else s.disk.files i }
      else .error EINVAL := by
    rw [Disk.ftruncate, if_neg (Int.not_lt.2 (Int.natCast_nonneg n)), hf]
    rfl
  rw [State.bb_ftruncate, hcut] at h ⊢
  by_cases hw : f.writable = true
  · rw [if_pos hw]
  · rw [if_neg hw] at h
    have herr : -EINVAL = 0 := h
    exact absurd herr (by decide)

/-! ## Blocks without data behind the cut -/

/-- A block at this place of a file has only zeros from the position `n` on. -/
def ZeroFrom (n : Nat) (start : Int) (l : List UInt8) : Prop :=
  ∀ b ∈ l.drop (n - start).toNat, b = 0

instance (n : Nat) (start : Int) (l : List UInt8) : Decidable (ZeroFrom n start l) :=
  inferInstanceAs (Decidable (∀ b ∈ _, b = 0))

/-- The bytes of the block from the place `n` on are 0. -/
theorem zeroFrom_iff : ZeroFrom n start l ↔ ∀ i : Nat, n ≤ start + i → l.getD i 0 = 0 := by
  constructor
  · intro h i hi
    by_cases hlt : i < l.length
    · rw [List.getD_eq_getElem _ _ hlt]
      refine h _ (List.mem_drop_iff_getElem.2 ⟨i - (n - start).toNat, by omega, ?_⟩)
      congr 1
      omega
    · exact getD_of_le (Nat.le_of_not_lt hlt)
  · intro h b hb
    obtain ⟨i, hi, rfl⟩ := List.mem_drop_iff_getElem.1 hb
    rw [← List.getD_eq_getElem _ 0]
    exact h _ (by omega)

/-- Bytes that lie further back may be looked at as if they came earlier. -/
theorem ZeroFrom.mono (h : ZeroFrom n start l) (hle : x ≤ start) : ZeroFrom n x l := by
  rw [zeroFrom_iff] at h ⊢
  exact fun i hi => h i (by omega)

theorem ZeroFrom.fit (h : ZeroFrom n start l) : ZeroFrom n start (fit k l) := by
  rw [zeroFrom_iff] at h ⊢
  intro i hi
  rw [getD_fit, h i hi, ite_self]

theorem ZeroFrom.drop (h : ZeroFrom n start l) (hx : x = start + k) : ZeroFrom n x (l.drop k) := by
  rw [zeroFrom_iff] at h ⊢
  intro i hi
  rw [getD_drop]
  exact h _ (by omega)

theorem ZeroFrom.slice (h : ZeroFrom n start l) (hx : x = start + k) :
    ZeroFrom n x (slice l k size) := by
  have hd := zeroFrom_iff.1 (h.drop hx)
  rw [zeroFrom_iff]
  intro i hi
  rw [Bbfs.slice, getD_take, hd i hi, ite_self]

/-- What `%s` copies. -/
theorem ZeroFrom.cstring (h : ZeroFrom n start l) : ZeroFrom n start (cstring l) := by
  rw [zeroFrom_iff] at h ⊢
  intro i hi
  have hl := h i hi
  rw [← List.takeWhile_append_dropWhile (p := fun b : UInt8 => b ≠ 0) (l := l), getD_append] at hl
  split at hl
  case isTrue => exact hl
  case isFalse hlt => exact getD_of_le (Nat.le_of_not_lt hlt)

/-- A byte that `sprintf` puts into its block comes from the same place of a file or from one
further back. -/
theorem ZeroFrom.sprintf (ha : ZeroFrom n start a) (hl : ZeroFrom n (start + MAX_CHUNK_SIZE) l)
    (hlen : a.length ≤ MAX_CHUNK_SIZE) : ZeroFrom n start (sprintf a l) := by
  have hcut : (Bbfs.cstring a).length ≤ a.length := (List.takeWhile_sublist _).length_le
  refine ZeroFrom.fit (zeroFrom_iff.2 fun i hi => ?_)
  rw [getD_append]
  split
  case isTrue => exact zeroFrom_iff.1 ha.cstring i hi
  case isFalse => exact zeroFrom_iff.1 hl.cstring _ (by omega)

/-- A read ends with the file. -/
theorem zeroFrom_readAt {file : List UInt8} (hlen : file.length = n) :
    ZeroFrom n offset (readAt file offset size) := by
  rw [zeroFrom_iff]
  intro i hi
  rw [getD_readAt, getD_of_le (by omega), ite_self]

/-- A read past the end of the file stores zeros. -/
theorem zeroFrom_preadBlock (hf : s.disk.fds fd = some f)
    (hlen : (s.disk.files f.ino).length = n) : ZeroFrom n start (s.preadBlock fd size start) := by
  have hnil : ∀ m, ZeroFrom n start (Foundations.fit m []) := fun m =>
    ZeroFrom.fit (zeroFrom_iff.2 fun _ _ => rfl)
  simp only [State.preadBlock, Disk.pread, hf]
  split
  case h_1 buf hread =>
    split at hread
    case isTrue => cases hread
    case isFalse hpos =>
      split at hread <;> cases hread
      have hstart : (start.toNat : Int) = start := Int.toNat_of_nonneg (Int.not_lt.1 hpos)
      exact (hstart ▸ zeroFrom_readAt hlen).fit
  case h_2 => exact hnil size

/-! ## The cache after the cut -/

/-- The chunk can bring nothing back from behind the cut: it holds no data there, and if it is
dirty it ends before. -/
def FileBuffer.Clear (n : Nat) (b : FileBuffer) : Prop :=
  ZeroFrom n b.fromOffset b.buf.bytes ∧ (b.dirty = true → b.fromOffset + MAX_CHUNK_SIZE ≤ n)

instance (n : Nat) (b : FileBuffer) : Decidable (b.Clear n) :=
  inferInstanceAs (Decidable (_ ∧ _))

/-- What holds while the cut file is only read. -/
structure Cut (fd : Int) (f : OpenFile) (n : Nat) (s : State) : Prop extends Orderly fd s where
  fds : s.disk.fds fd = some f
  length : (s.disk.files f.ino).length = n
  clear : ∀ b ∈ s.list, b.Clear n

/-- A clear chunk that is written back does not make the file longer. -/
theorem length_writeBack (hf : d.fds fd = some f) (hlen : (d.files f.ino).length = n)
    (hv : v.Clear n) : ((d.writeBack fd v).files f.ino).length = n := by
  rw [Disk.writeBack]
  split
  case isFalse => exact hlen
  case isTrue hd =>
    have hle := hv.2 hd
    simp only [Disk.written, Disk.pwrite, hf]
    by_cases hpos : v.fromOffset < 0
    · rw [if_pos hpos]
      exact hlen
    · rw [if_neg hpos]
      by_cases hw : f.writable = true
      · have hne : v.buf.bytes ≠ [] := List.ne_nil_of_length_pos (v.buf.size ▸ by decide)
        simp only [hw, if_true]
        rw [length_writeAt hne, v.buf.size]
        omega
      · simp only [hw]
        exact hlen

theorem Cut.quiet (h : Cut fd f n s) (hq : Quiet s s') (hlist : s'.list = s.list)
    (hdisk : s'.disk = s.disk) : Cut fd f n s' :=
  { h.toOrderly.quiet hq with
    fds := hdisk ▸ h.fds
    length := hdisk ▸ h.length
    clear := hlist ▸ h.clear }

theorem Cut.pread (h : Cut fd f n s) (fd' : Int) (size : Nat) (start : Int) :
    Cut fd f n (s.record (.pread fd' size start)) :=
  h.quiet (quiet_pread ..) rfl rfl

theorem Cut.bufferHitCheck (h : Cut fd f n s) : Cut fd f n (s.bufferHitCheck start size fd).2 :=
  { h.toOrderly.bufferHitCheck with
    fds := h.fds
    length := h.length
    clear := fun b hb => by
      obtain ⟨hperm, -⟩ := @Nodes.bufferHitCheck s fd start size h.toNodes
      exact h.clear b (hperm.mem_iff.1 hb) }

/-- Whatever is evicted, the file keeps its length. -/
theorem Cut.length_added (h : Cut fd f n s) (hs : Added s conf rand new s') :
    (s'.disk.files f.ino).length = n := by
  cases hs with
  | room => exact h.length
  | @full l₁ l₂ v _ hl =>
    have hv : v ∈ s.list := by simp [hl]
    dsimp only
    rw [(h.placed v hv).fd]
    exact length_writeBack h.fds h.length (h.clear v hv)

/-- A chunk without data behind the cut is added. -/
theorem Cut.addFileBuffer (h : Cut fd f n s) (hdvd : (MAX_CHUNK_SIZE : Int) ∣ x)
    (hstart : start = toInt x) (hstop : stop = toInt (x + MAX_CHUNK_SIZE))
    (hzero : ZeroFrom n start l) : Cut fd f n (s.addFileBuffer conf rand l start stop fd) := by
  have hadd := h.toNodes.adds_buffer conf rand l start stop fd
  have horder := @Orderly.addFileBuffer s fd x start stop l conf rand h.toOrderly hdvd hstart hstop
  obtain ⟨rest, hlist, hsub⟩ := hadd.list
  have hclear : ∀ b ∈ (s.addFileBuffer conf rand l start stop fd).list, b.Clear n := by
    intro b hb
    rw [hlist] at hb
    rcases List.mem_cons.1 hb with rfl | hb
    · exact ⟨hzero.fit, nofun⟩
    · exact h.clear b (hsub.subset hb)
  exact { horder with
    fds := hadd.fds ▸ h.fds
    length := h.length_added hadd
    clear := hclear }

/-- What a read stores is 0 behind the cut. -/
theorem Cut.preadBlock (h : Cut fd f n s) : ZeroFrom n start (s.preadBlock fd size start) :=
  zeroFrom_preadBlock h.fds h.length

/-- A release leaves the file as long as it was cut. -/
theorem length_release (hf : d.fds fd = some f) (hlen : (d.files f.ino).length = n)
    {l : List FileBuffer} (hl : ∀ b ∈ l, b.Clear n) :
    ((l.foldl (fun d b => d.writeBack fd b) d).files f.ino).length = n := by
  induction l generalizing d with
  | nil => exact hlen
  | cons v l ih =>
    refine ih ?_ (length_writeBack hf hlen (hl v List.mem_cons_self)) fun b hb =>
      hl b (List.mem_cons_of_mem _ hb)
    rw [fds_writeBack]
    exact hf

/-! ## Reads after the cut -/

/-- One part of the request was found. -/
def HitInfo.isPartialMiss : HitInfo → Bool
  | .PARTIAL_MISS_FIRST _ | .PARTIAL_MISS_SECOND _ => true
  | _ => false

/-- The read finds one part in the cache, and the eviction for the other part frees it: the read
goes on with a node that was freed. -/
def TakesPart (s : State) (env : Env) (fd : Int) (offset : Nat) : Prop :=
  (s.bufferHitCheck (toInt offset) MAX_CHUNK_SIZE fd).1.isPartialMiss = true ∧
    s.EvictsFront env.evict₁.1 env.evict₁.2

instance (s : State) (env : Env) (fd : Int) (offset : Nat) :
    Decidable (TakesPart s env fd offset) :=
  inferInstanceAs (Decidable (_ ∧ _))

/-- The two chunks that a request touches; the `int` arithmetic on their bounds is exact. -/
theorem chunk_bounds (ho : offset + MAX_CHUNK_SIZE < 2 ^ 31) :
    toInt offset = offset ∧ toInt ((offset : Int) + MAX_CHUNK_SIZE) = offset + MAX_CHUNK_SIZE ∧
      ∃ first second : Int, first = offset - (offset % MAX_CHUNK_SIZE : Nat) ∧
        second = first + MAX_CHUNK_SIZE ∧ (toInt first = first ∧ toInt second = second) ∧
        (MAX_CHUNK_SIZE : Int) ∣ first ∧ (MAX_CHUNK_SIZE : Int) ∣ second := by
  simp only [toInt, MAX_CHUNK_SIZE] at *
  refine ⟨by omega, by omega, _, _, rfl, rfl, ?_, ?_⟩
  · omega
  · omega

/-- A cached read returns no data from behind the cut, and puts none into the cache. -/
theorem Cut.cachedRead (h : Cut fd f n s) (ho : offset + MAX_CHUNK_SIZE < 2 ^ 31)
    (hkeep : ¬ TakesPart s env fd offset) :
    ZeroFrom n offset (s.cachedRead env fd MAX_CHUNK_SIZE offset).1 ∧
      Cut fd f n (s.cachedRead env fd MAX_CHUNK_SIZE offset).2 := by
  have hs := @Cut.bufferHitCheck s fd f n MAX_CHUNK_SIZE (toInt offset) h
  have hf := found_lookup s fd offset
  have hmove : (s.bufferHitCheck (toInt offset) MAX_CHUNK_SIZE fd).2.list =
      (s.bufferHitCheck (toInt offset) MAX_CHUNK_SIZE fd).1.move s.list := rfl
  have hfront : (s.bufferHitCheck (toInt offset) MAX_CHUNK_SIZE fd).1.isPartialMiss = true →
      ¬ (s.bufferHitCheck (toInt offset) MAX_CHUNK_SIZE fd).2.EvictsFront env.evict₁.1
        env.evict₁.2 := fun hp he => hkeep ⟨hp, he⟩
  obtain ⟨hfrom, hto, first, second, hfirst, hsecond, hint, hdvd⟩ := chunk_bounds ho
  have hpart : ∀ b ∈ s.list, b.Covers fd offset → b.fromOffset = first ∧ b.toOffset = second := by
    intro b hb hc
    obtain ⟨h₁, h₂⟩ := (h.placed b hb).of_covers hc
    simp only [MAX_CHUNK_SIZE] at *
    omega
  have hpart' : ∀ b ∈ s.list, b.Covers fd (offset + MAX_CHUNK_SIZE) →
      b.fromOffset = second ∧ b.toOffset - MAX_CHUNK_SIZE = second := by
    intro b hb hc
    obtain ⟨h₁, h₂⟩ := (h.placed b hb).of_covers hc
    simp only [MAX_CHUNK_SIZE] at *
    omega
  have hslice : (offset : Int) = first + (offset % MAX_CHUNK_SIZE : Nat) := by omega
  rw [hfrom, hto] at hf
  rw [hfrom] at hmove hfront hs
  rw [State.cachedRead, State.cachedReadWith, hfrom]
  generalize s.bufferHitCheck offset MAX_CHUNK_SIZE fd = r at *
  obtain ⟨info, s₁⟩ := r
  -- a chunk that is read from the file has no data behind the cut
  have hread : ∀ {size start}, ZeroFrom n start (s₁.preadBlock fd size start) := hs.preadBlock
  cases hf with
  | @perfectHit b hb hbs => exact ⟨hbs.2 ▸ (h.clear b hb).1, hs⟩
  | @partialHit b c _ hb hbt hc hcu =>
    obtain ⟨hbfrom, -⟩ := hpart b hb hbt
    obtain ⟨hcfrom, -⟩ := hpart' c hc hcu
    have htotal : ZeroFrom n first (sprintf b.buf.bytes c.buf.bytes) :=
      ZeroFrom.sprintf (hbfrom ▸ (h.clear b hb).1) (hsecond ▸ hcfrom ▸ (h.clear c hc).1)
        (Nat.le_of_eq b.buf.size)
    exact ⟨htotal.slice hslice, hs⟩
  | @first b _ hb hbt =>
    obtain ⟨hbfrom, hbto⟩ := hpart b hb hbt
    dsimp only
    rw [hbto]
    have hadd : Cut fd f n ((s₁.record (.pread fd MAX_CHUNK_SIZE second)).addFileBuffer
        env.evict₁.1 env.evict₁.2 (s₁.preadBlock fd MAX_CHUNK_SIZE second) second
        (toInt (second + MAX_CHUNK_SIZE)) fd) :=
      (hs.pread ..).addFileBuffer hdvd.2 hint.2.symm rfl hread
    have htotal : ZeroFrom n first (sprintf b.buf.bytes (s₁.preadBlock fd MAX_CHUNK_SIZE second)) :=
      ZeroFrom.sprintf (hbfrom ▸ (h.clear b hb).1) (hsecond ▸ hread) (Nat.le_of_eq b.buf.size)
    rw [deref_front (hs.pread ..).bufferCount hadd.ids hmove (hfront rfl)]
    exact ⟨htotal.slice hslice, hadd⟩
  | @second c _ hc hcu =>
    obtain ⟨hcfrom, hcto⟩ := hpart' c hc hcu
    dsimp only
    rw [hcto, hint.2]
    have hadd : Cut fd f n ((s₁.record (.pread fd MAX_CHUNK_SIZE second)).addFileBuffer
        env.evict₁.1 env.evict₁.2 (s₁.preadBlock fd MAX_CHUNK_SIZE second) second
        (toInt (second + MAX_CHUNK_SIZE)) fd) :=
      (hs.pread ..).addFileBuffer hdvd.2 hint.2.symm rfl hread
    -- what was read lies one chunk behind the place where it is returned
    have hearly : ZeroFrom n first (s₁.preadBlock fd MAX_CHUNK_SIZE second) :=
      hread.mono (by omega)
    have htotal : ZeroFrom n first (sprintf (s₁.preadBlock fd MAX_CHUNK_SIZE second) c.buf.bytes) :=
      ZeroFrom.sprintf hearly (hsecond ▸ hcfrom ▸ (h.clear c hc).1)
        (Nat.le_of_eq (length_preadBlock ..))
    rw [deref_front (hs.pread ..).bufferCount hadd.ids hmove (hfront rfl)]
    exact ⟨htotal.slice hslice, hadd⟩
  | perfectMiss =>
    dsimp only
    split
    case isTrue hp =>
      have hoffset : (offset : Int) = first := by omega
      rw [hoffset]
      exact ⟨hread.slice (by simp), (hs.pread ..).addFileBuffer hdvd.1 hint.1.symm rfl
        hread⟩
    case isFalse =>
      rw [← hfirst, hint.1, ← hsecond, hint.2]
      have hadd := @Cut.addFileBuffer _ fd f n (s₁.preadBlock fd (2 * MAX_CHUNK_SIZE) first) first
        first second env.evict₁.1 env.evict₁.2 (hs.pread fd (2 * MAX_CHUNK_SIZE) first) hdvd.1
        hint.1.symm (by rw [← hsecond, hint.2]) hread
      exact ⟨hread.slice hslice, hadd.addFileBuffer hdvd.2 hint.2.symm rfl
        (hread.drop hsecond)⟩

/-- The read uses the cache. -/
def UsesCache (s : State) (env : Env) (size : Nat) : Prop :=
  (s.loadPolicyFromFile env.conf).policy.cachePolicy ≠ 0 ∧ size = MAX_CHUNK_SIZE

instance (s : State) (env : Env) (size : Nat) : Decidable (UsesCache s env size) :=
  inferInstanceAs (Decidable (_ ∧ _))

/-- The request ends where an `int` can say it, and what it finds in the cache stays there. -/
def SafeRead (s : State) (env : Env) (fd : Int) (offset : Nat) : Prop :=
  offset + MAX_CHUNK_SIZE < 2 ^ 31 ∧ ¬ TakesPart (s.loadPolicyFromFile env.conf) env fd offset

instance (s : State) (env : Env) (fd : Int) (offset : Nat) : Decidable (SafeRead s env fd offset) :=
  inferInstanceAs (Decidable (_ ∧ _))

/-- A safe read returns zeros behind the cut, and leaves them in the cache. -/
theorem Cut.bb_read (h : Cut fd f n s) (hsafe : UsesCache s env size → SafeRead s env fd offset) :
    (∃ raw, (s.bb_read env fd size offset).1.buf =
        (s.bb_read env fd size offset).2.policy.decrypt raw ∧ ZeroFrom n offset raw) ∧
      Cut fd f n (s.bb_read env fd size offset).2 := by
  have hs : Cut fd f n (s.loadPolicyFromFile env.conf) :=
    h.quiet (quiet_loadPolicyFromFile s env.conf) rfl rfl
  rw [State.bb_read]
  split
  case isTrue hc =>
    obtain ⟨ho, hkeep⟩ := hsafe hc
    obtain ⟨-, rfl⟩ := hc
    obtain ⟨hzero, hcut⟩ := hs.cachedRead ho hkeep
    exact ⟨⟨_, rfl, hzero⟩, hcut⟩
  case isFalse =>
    dsimp only
    refine ⟨?_, by split <;> exact hs.pread ..⟩
    split
    case h_1 buf hread =>
      refine ⟨buf, rfl, ?_⟩
      rw [Disk.pread, if_neg (by omega), hs.fds] at hread
      dsimp only at hread
      split at hread <;> cases hread
      exact zeroFrom_readAt hs.length
    case h_2 =>
      have hnil : ∀ p : Policy, p.decrypt [] = [] := fun p =>
        List.eq_nil_of_length_eq_zero (length_decrypt p [])
      exact ⟨[], (hnil _).symm, zeroFrom_iff.2 fun _ _ => rfl⟩

/-! ## Runs -/

/-- A request of one chunk with the cache. -/
def CachedStep (fd : Int) (s : State) (e : Event) (s' : State) : Prop :=
  StepBy step s e s' ∧ e.call.IsRequest fd ∧ Cached e

/-- The call is a `bb_read` of the descriptor. -/
def Call.IsRead (fd : Int) : Call → Prop
  | .read fd' _ _ => fd' = fd
  | _ => False

/-- A step that reads the descriptor. -/
def ReadStep (fd : Int) (s : State) (e : Event) (s' : State) : Prop :=
  StepBy step s e s' ∧ e.call.IsRead fd

/-- A read that uses the cache is a safe one. -/
def Event.Safe (e : Event) : Prop :=
  ∀ fd size offset, e.call = .read fd size offset → UsesCache e.before e.env size →
    SafeRead e.before e.env fd offset

/-- The read returned no data from a position `n` or behind it: the bytes for these positions are
zeros, or what becomes of zeros when they are decrypted. -/
def Event.ZeroFrom (n : Nat) (e : Event) : Prop :=
  ∀ fd size offset, e.call = .read fd size offset →
    ∃ raw, e.result.buf = e.after.policy.decrypt raw ∧ Bbfs.ZeroFrom n offset raw

/-- A safe read of the run keeps zeros behind the cut. -/
theorem Cut.step (h : Cut fd f n s) (he : ReadStep fd s e s') (hsafe : e.Safe) :
    e.ZeroFrom n ∧ Cut fd f n s' := by
  obtain ⟨⟨a, ha⟩, hcall⟩ := he
  obtain ⟨rfl, rfl⟩ := step_eq ha
  obtain ⟨env, call⟩ := a
  cases call with
  | read fd' size offset =>
    obtain rfl := hcall
    obtain ⟨hzero, hcut⟩ := h.bb_read (hsafe fd' size offset rfl)
    refine ⟨fun fd'' size' offset' heq => ?_, hcut⟩
    cases heq
    exact hzero
  | write | release => exact absurd hcall id

/-- The state right after the file was cut. -/
theorem Orderly.cut (h : Orderly fd s) (hf : s.disk.fds fd = some f)
    (hcut : (s.bb_ftruncate fd n).1.ret = 0) (hclear : ∀ b ∈ s.list, b.Clear n) :
    Cut fd f n (s.bb_ftruncate fd n).2 := by
  rw [bb_ftruncate_eq hcut hf]
  exact {
    h with
    fds := hf
    length := by
      simp only [if_true]
      exact length_fit ..
    clear := hclear }

/-- If no cached chunk has data behind the cut, and no dirty one reaches over it, when the file is
cut, then no later read returns data from there, and a release leaves the file as long as it was
cut. -/
theorem truncated_data_is_gone (hs : s₀.Fresh) (h : Run (CachedStep fd) s₀ τ s)
    (hf : s.disk.fds fd = some f) (hcut : (s.bb_ftruncate fd n).1.ret = 0)
    (hclear : ∀ b ∈ s.list, b.Clear n)
    (h' : Run (fun s e s' => ReadStep fd s e s' ∧ e.Safe) (s.bb_ftruncate fd n).2 τ' s') :
    (∀ e ∈ τ', e.ZeroFrom n) ∧ ((s'.bb_release fd).2.disk.files f.ino).length = n := by
  have horder : Orderly fd s := orderly_run hs (h.mono fun he => ⟨he.1, he.2.1⟩)
  obtain ⟨hzero, hend⟩ : (∀ e ∈ τ', e.ZeroFrom n) ∧ Cut fd f n s' := by
    refine h'.invariant (fun τ' s' => (∀ e ∈ τ', e.ZeroFrom n) ∧ Cut fd f n s')
      ⟨by simp, horder.cut hf hcut hclear⟩ ?_
    rintro τ' s e s' - ⟨hzero, hc⟩ ⟨he, hsafe⟩
    obtain ⟨hnew, hc'⟩ := hc.step he hsafe
    exact ⟨List.forall_mem_cons.2 ⟨hnew, hzero⟩, hc'⟩
  refine ⟨hzero, ?_⟩
  rw [State.bb_release, releaseFileBuffer_eq]
  exact length_release hend.fds hend.length hend.clear

/-- A file one byte longer than a chunk. -/
def longFile : List UInt8 :=
  List.replicate (MAX_CHUNK_SIZE + 1) 7

/-- The first chunk of the file is read. -/
def readFirst : Event :=
  (mount (oneFile longFile)).event (plainEnv 2) (.read 3 MAX_CHUNK_SIZE 0)

/-- The file is cut behind it. -/
def afterCut : State :=
  (readFirst.after.bb_ftruncate 3 MAX_CHUNK_SIZE).2

/-- The chunk behind the cut is read. -/
def readSecond : Event :=
  afterCut.event (plainEnv 2) (.read 3 MAX_CHUNK_SIZE MAX_CHUNK_SIZE)

/-- The read of the second chunk returns zeros, and the file keeps its length. -/
theorem truncated_data_is_gone_long :
    readSecond.ZeroFrom MAX_CHUNK_SIZE ∧
      ((readSecond.after.bb_release 3).2.disk.files 0).length = MAX_CHUNK_SIZE := by
  have hread : CachedStep 3 (mount (oneFile longFile)) readFirst readFirst.after :=
    ⟨step_event _ _ _, rfl, by decide +kernel⟩
  have hlater : ReadStep 3 afterCut readSecond readSecond.after := ⟨step_event _ _ _, rfl⟩
  have hsafe : readSecond.Safe := by
    intro fd size offset heq _
    cases heq
    decide +kernel
  have hgone := @truncated_data_is_gone _ _ _ 3 ⟨0, true, true⟩ MAX_CHUNK_SIZE _ _
    (fresh_mount (oneFile longFile)) (.step .start hread) (by decide +kernel) (by decide +kernel)
    (by decide +kernel) (.step .start ⟨hlater, hsafe⟩)
  exact ⟨hgone.1 readSecond List.mem_cons_self, hgone.2⟩

/-- The first chunk of an empty file is written. -/
def writeFirst : Event :=
  (mount (oneFile [])).event (plainEnv 2) (.write 3 ones 0)

/-- The file is cut to nothing. -/
def afterErase : State :=
  (writeFirst.after.bb_ftruncate 3 (0 : Nat)).2

/-- The chunk is read again. -/
def readErased : Event :=
  afterErase.event (plainEnv 2) (.read 3 MAX_CHUNK_SIZE 0)

/-- A chunk that is cached when the file is cut is still read. -/
theorem truncated_data_comes_back :
    ¬ ∀ (s₀ s s' : State) (fd : Int) (f : OpenFile) (n : Nat) (τ τ' : List Event), s₀.Fresh →
      Run (CachedStep fd) s₀ τ s → s.disk.fds fd = some f → (s.bb_ftruncate fd n).1.ret = 0 →
      Run (ReadStep fd) (s.bb_ftruncate fd n).2 τ' s' →
      (∀ e ∈ τ', e.ZeroFrom n) ∧ ((s'.bb_release fd).2.disk.files f.ino).length = n := by
  intro hall
  have hwrite : CachedStep 3 (mount (oneFile [])) writeFirst writeFirst.after :=
    ⟨step_event _ _ _, rfl, by decide +kernel⟩
  have hread : ReadStep 3 afterErase readErased readErased.after := ⟨step_event _ _ _, rfl⟩
  obtain ⟨hzero, -⟩ := hall _ _ _ 3 ⟨0, true, true⟩ 0 _ _ (fresh_mount (oneFile []))
    (.step .start hwrite) (by decide +kernel) (by decide +kernel) (.step .start hread)
  obtain ⟨raw, hraw, hz⟩ := hzero readErased List.mem_cons_self 3 MAX_CHUNK_SIZE 0 rfl
  have hplain : readErased.after.policy.decrypt raw = raw := if_neg (by decide +kernel)
  rw [hplain] at hraw
  rw [← hraw] at hz
  exact absurd hz (by decide +kernel)

end EE516.Bbfs
